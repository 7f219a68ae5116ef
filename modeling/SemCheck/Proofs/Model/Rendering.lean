import SemCheck.Model.Render
import SemCheck.Proofs.Model.Made
import SemCheck.Proofs.Text.Stretch

/-!
# Which types read alike

Nothing in the text of a type says what is a member of what, so that types may read alike: both `A` beside `B&C` and `C`
together with `A|B` are `A|B&C`. A type reads like the type that is read from its text, `Ty.reread` (`chars_reread`), and
there is one way to read a text (`Legible.reads`), so that types read alike exactly if the same type is read from them.
Main statement: `typeName_eq_iff`.

A text is read from its front. A name goes on as long as there are letters and digits. What comes behind a type is the
mark of something that the type is only a part of (`Stops`), and so the text does not go on as the type's own would.
-/

namespace SemCheck

/-- What stands between the members in the text of a union or intersection. -/
def Ty.Joint.mark : Ty.Joint → Char
  | union => '|'
  | intersection => '&'

namespace Text

/-- Texts in a row, with a mark between them. -/
def joined (mark : Char) : List (List Char) → List Char
  | [] => []
  | s :: ss => s ++ ss.flatMap (mark :: ·)

variable {mark : Char} {ss ss' : List (List Char)}

theorem joined_singleton (mark : Char) (s : List Char) : joined mark [s] = s := List.append_nil s

theorem joined_append (h : ss ≠ []) (h' : ss' ≠ []) :
    joined mark (ss ++ ss') = joined mark ss ++ mark :: joined mark ss' := by
  match ss, ss', h, h' with
  | s :: ss, s' :: ss', _, _ => simp [joined]

theorem intercalate_eq (mark : Char) (ss : List (List Char)) : [mark].intercalate ss = joined mark ss := by
  match ss with
  | [] => rfl
  | [s] => simp [joined]
  | s :: s' :: ss => rw [List.intercalate_cons_cons, intercalate_eq mark (s' :: ss)]; simp [joined]

end Text

namespace Model

open Text Ty

variable {m : Model} {d e p : DeclId} {decl decl' : Declaration} {t u : Ty} {args args' ts us ms : List Ty}
  {tss uss : List (List Ty)} {rest rest' : List Char} {mark : Char} {j : Joint}

/-! ## Texts -/

/-- The text of a type. -/
def chars (m : Model) (t : Ty) : List Char := (m.typeText t).toList

theorem typeName_eq_iff_chars : m.typeName t = m.typeName u ↔ m.chars t = m.chars u := by
  rw [typeName_eq, typeName_eq, chars, chars, String.toList_inj]

theorem toList_intercalate_typeTexts (mark : Char) (ts : List Ty) :
    ((String.singleton mark).intercalate (m.typeTexts ts)).toList = joined mark (ts.map m.chars) := by
  rw [String.toList_intercalate, String.toList_singleton, intercalate_eq, typeTexts_eq, List.map_map]
  rfl

theorem chars_wrap (j : Joint) (ms : List Ty) : m.chars (j.wrap ms) = joined j.mark (ms.map m.chars) := by
  cases j with
  | union => exact toList_intercalate_typeTexts '|' ms
  | intersection => exact toList_intercalate_typeTexts '&' ms

/-- The arguments behind a name. -/
def brackets (m : Model) : List Ty → List Char
  | [] => []
  | args => '<' :: (joined ',' (args.map m.chars) ++ ['>'])

theorem brackets_congr (h : args.map m.chars = args'.map m.chars) : m.brackets args = m.brackets args' := by
  cases args <;> cases args' <;> simp_all [brackets]

theorem chars_applied (d : DeclId) (args : List Ty) :
    m.chars (.applied d args) = (m.name d).toList ++ m.brackets args := by
  cases args with
  | nil => simp [chars, typeText, brackets]
  | cons arg args =>
    have hargs := toList_intercalate_typeTexts (m := m) ',' (arg :: args)
    have htext : m.typeText (.applied d (arg :: args)) =
        m.name d ++ "<" ++ (String.singleton ',').intercalate (m.typeTexts (arg :: args)) ++ ">" := rfl
    rw [chars, htext, String.toList_append, String.toList_append, String.toList_append, hargs, List.append_assoc,
      List.append_assoc]
    rfl

theorem chars_split (j : Joint) (t : Ty) : m.chars t = joined j.mark ((j.split t).map m.chars) := by
  cases hinner : j.inner? t with
  | none =>
    rw [Joint.split, hinner, Option.getD_none, List.map_singleton, joined_singleton]
  | some ms => rw [j.inner?_eq_some_iff.1 hinner, j.split_wrap, chars_wrap]

/-! ## What is read reads alike -/

/-- The text of a union of intersections. -/
def summandChars (m : Model) (tss : List (List Ty)) : List Char :=
  joined '|' (tss.map fun ts => joined '&' (ts.map m.chars))

theorem chars_collapse (j : Joint) (hne : ts ≠ []) : m.chars (collapse j.wrap ts) = joined j.mark (ts.map m.chars) := by
  match ts, hne with
  | [t], _ => exact (joined_singleton ..).symm
  | t :: u :: ts, _ => exact chars_wrap j (t :: u :: ts)

theorem summandChars_cons (ts : List Ty) (tss : List (List Ty)) :
    m.summandChars (ts :: tss) =
      joined '&' (ts.map m.chars) ++ tss.flatMap fun us => '|' :: joined '&' (us.map m.chars) := by
  rw [summandChars, List.map_cons, joined, List.flatMap_map]

theorem summandChars_singleton (t : Ty) : m.summandChars [[t]] = m.chars t := by
  rw [summandChars, List.map_singleton, joined_singleton, List.map_singleton, joined_singleton]

theorem summandChars_append (h : tss ≠ []) (h' : uss ≠ []) :
    m.summandChars (tss ++ uss) = m.summandChars tss ++ '|' :: m.summandChars uss := by
  rw [summandChars, List.map_append, joined_append (mt List.map_eq_nil_iff.1 h) (mt List.map_eq_nil_iff.1 h')]
  rfl

section

variable {P D : DeclId → Prop} {C : Joint → List Ty → Prop}

theorem chars_ofSummands (h : Spelled P D tss) : m.chars (ofSummands tss) = m.summandChars tss := by
  have hfactors : ∀ ts ∈ tss, (m.chars ∘ collapse .intersection) ts = joined '&' (ts.map m.chars) :=
    fun ts hts => chars_collapse .intersection (h.factors ts hts).1
  have hsummands := chars_collapse (m := m) .union (mt (List.map_eq_nil_iff (f := collapse .intersection)).1 h.ne_nil)
  rw [List.map_map, List.map_congr_left hfactors] at hsummands
  exact hsummands

theorem summandChars_beside (j : Joint) (h : Spelled P D tss) (h' : Spelled P D uss) :
    m.summandChars (j.beside tss uss) = m.summandChars tss ++ j.mark :: m.summandChars uss := by
  cases j with
  | union => exact summandChars_append h.ne_nil h'.ne_nil
  | intersection =>
    show m.summandChars (link tss uss) = _
    fun_induction link tss uss with
    | case1 => exact absurd rfl h.ne_nil
    | case2 => exact absurd rfl h'.ne_nil
    | case3 ts us uss =>
      have hts := (h.factors ts (List.mem_singleton_self ts)).1
      have hus := (h'.factors us List.mem_cons_self).1
      rw [summandChars_cons, summandChars_cons, summandChars_cons, List.map_append,
        joined_append (mt List.map_eq_nil_iff.1 hts) (mt List.map_eq_nil_iff.1 hus), List.flatMap_nil, List.append_nil,
        List.append_assoc]
      rfl
    | case4 ts ts' tss uss ih =>
      -- only the last summand of the left is linked
      have hlinked : link (ts' :: tss) uss ≠ [] := (h.of_cons.beside .intersection h').ne_nil
      have hsplit {vss : List (List Ty)} (hne : vss ≠ []) := summandChars_append (m := m) (List.cons_ne_nil ts []) hne
      calc m.summandChars (ts :: link (ts' :: tss) uss)
        _ = m.summandChars [ts] ++ '|' :: m.summandChars (link (ts' :: tss) uss) := hsplit hlinked
        _ = m.summandChars [ts] ++ '|' :: (m.summandChars (ts' :: tss) ++ '&' :: m.summandChars uss) := by
          rw [ih h.of_cons h']
          rfl
        _ = m.summandChars (ts :: ts' :: tss) ++ '&' :: m.summandChars uss := by
          rw [← List.cons_append, ← List.append_assoc, ← hsplit (List.cons_ne_nil _ _)]
          rfl

theorem chars_summandsOf (hne : ms ≠ [])
    (h : ∀ t ∈ ms, Spelled P D t.summands ∧ m.summandChars t.summands = m.chars t) :
    m.summandChars (summandsOf j ms) = joined j.mark (ms.map m.chars) := by
  induction ms with
  | nil => exact absurd rfl hne
  | cons t ts ih =>
    obtain ⟨⟨ht, htext⟩, hts⟩ := List.forall_mem_cons.1 h
    cases ts with
    | nil => rw [summandsOf, summandsOf, beside_nil, htext, List.map_singleton, joined_singleton]
    | cons u us =>
      have hrest := spelled_summandsOf (j := j) (List.cons_ne_nil u us) fun v hv => (hts v hv).1
      rw [summandsOf, summandChars_beside j ht hrest, htext, ih (List.cons_ne_nil _ _) hts]
      rfl

theorem chars_summands (hC : ∀ j ms, C j ms → ms ≠ []) (h : t.Composed P D C) :
    m.summandChars t.summands = m.chars t := by
  induction h with
  | nothing => exact summandChars_singleton _
  | param => exact summandChars_singleton _
  | @applied d args hd hargs ih =>
    have hreread : ∀ u ∈ args, (m.chars ∘ reread) u = m.chars u := by
      intro u hu
      rw [Function.comp_apply, reread, chars_ofSummands ((hargs u hu).spelled hC), ih u hu]
    have hargs : (args.map reread).map m.chars = args.map m.chars := by
      rw [List.map_map, List.map_congr_left hreread]
    rw [summands, summandChars_singleton, rereadAll_eq, chars_applied, chars_applied, brackets_congr hargs]
  | @wrap j ms h hms ih =>
    rw [summands_wrap, chars_wrap, chars_summandsOf (hC j ms hms) fun t ht => ⟨(h t ht).spelled hC, ih t ht⟩]

/-- A type reads like the type that is read. -/
theorem chars_reread (hC : ∀ j ms, C j ms → ms ≠ []) (h : t.Composed P D C) : m.chars t.reread = m.chars t := by
  rw [reread, chars_ofSummands (h.spelled hC), chars_summands hC h]

end

/-! ## One reading -/

/-- Names of letters and digits, each of one declaration only and none that of the bottom type. -/
structure Legible (m : Model) : Prop where
  letters : ∀ decl ∈ m.declarations.toList, decl.name.toList.all Char.isAlphanum = true
  distinct : (m.declarations.toList.map Declaration.name).Nodup
  nothing : ∀ decl ∈ m.declarations.toList, decl.name ≠ "Nothing"

theorem name_of_get?_eq_some (h : m.get? d = some decl) : m.name d = decl.name := by rw [name, h]

theorem Legible.name_inj (hm : m.Legible) (hd : m.get? d = some decl) (he : m.get? e = some decl')
    (h : m.name d = m.name e) : d = e := by
  have hname {d : DeclId} {decl : Declaration} (h : m.get? d = some decl) :
      (m.declarations.toList.map Declaration.name)[d.index]? = some (m.name d) := by
    rw [name_of_get?_eq_some h, List.getElem?_map, Array.getElem?_toList]
    exact congrArg (Option.map Declaration.name) h
  have hlt := (List.getElem?_eq_some_iff.1 (hname hd)).1
  cases d
  cases e
  exact congrArg DeclId.mk ((List.getElem?_inj hlt hm.distinct).1 ((hname hd).trans (h ▸ (hname he).symm)))

/-- A type over declarations that the model knows, in layers. -/
abbrev InLayers (m : Model) : Ty → Prop := Ty.Composed m.IsParameter m.IsDeclared Tighter

/-- The name at the front of a text. -/
def front (m : Model) : Ty → List Char
  | .nothing => "Nothing".toList
  | .param p => (m.name p).toList
  | .applied d _ => (m.name d).toList
  | _ => []

theorem chars_of_rank_eq_zero (h : m.InLayers t) (hrank : t.rank = 0) :
    m.chars t = m.front t ++ m.brackets t.parts := by
  cases h with
  | nothing => exact (List.append_nil _).symm
  | param => exact (List.append_nil _).symm
  | applied => exact chars_applied ..
  | @wrap j ms => exact absurd (j.rank_wrap ms ▸ hrank) (Nat.ne_of_gt j.rank_pos)

/-- The name at the front is that of a declaration, whose kind says what the type is. -/
theorem eq_nothing_or_named (h : m.InLayers t) (hrank : t.rank = 0) :
    t = .nothing ∨ ∃ d decl, m.get? d = some decl ∧ m.front t = (m.name d).toList ∧
      t = if decl.kind = .typeParameter then .param d else .applied d t.parts := by
  cases h with
  | nothing => exact Or.inl rfl
  | @param p hp =>
    obtain ⟨decl, hget, hkind⟩ := hp
    exact Or.inr ⟨p, decl, hget, rfl, (if_pos hkind).symm⟩
  | @applied d args hd =>
    obtain ⟨decl, hget, hkind⟩ := hd
    exact Or.inr ⟨d, decl, hget, rfl, (if_neg hkind).symm⟩
  | @wrap j ms => exact absurd (j.rank_wrap ms ▸ hrank) (Nat.ne_of_gt j.rank_pos)

theorem Legible.isAlphanum_front (hm : m.Legible) (h : m.InLayers t) (hrank : t.rank = 0) :
    ∀ c ∈ m.front t, c.isAlphanum = true := by
  refine List.all_eq_true.1 ?_
  rcases eq_nothing_or_named h hrank with rfl | ⟨d, decl, hget, hfront, -⟩
  · show "Nothing".toList.all Char.isAlphanum = true
    decide
  · rw [hfront, name_of_get?_eq_some hget]
    exact hm.letters decl (Array.mem_toList_iff.2 (Array.mem_of_getElem? hget))

theorem Legible.front_ne_nothing (hm : m.Legible) (hget : m.get? d = some decl) :
    (m.name d).toList ≠ "Nothing".toList := by
  rw [Ne, String.toList_inj, name_of_get?_eq_some hget]
  exact hm.nothing decl (Array.mem_toList_iff.2 (Array.mem_of_getElem? hget))

/-- What a type of rank 0 is follows from the name at its front and its arguments. -/
theorem Legible.eq_of_front_eq (hm : m.Legible) (ht : m.InLayers t) (hu : m.InLayers u) (hrankt : t.rank = 0)
    (hranku : u.rank = 0) (hfront : m.front t = m.front u) (hparts : t.parts = u.parts) : t = u := by
  rcases eq_nothing_or_named ht hrankt with rfl | ⟨d, decl, hd, hfrontt, hteq⟩ <;>
    rcases eq_nothing_or_named hu hranku with rfl | ⟨e, decl', he, hfrontu, hueq⟩
  case inl.inl => rfl
  case inl.inr => exact absurd (hfrontu.symm.trans hfront.symm) (hm.front_ne_nothing he)
  case inr.inl => exact absurd (hfrontt.symm.trans hfront) (hm.front_ne_nothing hd)
  case inr.inr =>
    rw [hfrontt, hfrontu, String.toList_inj] at hfront
    obtain rfl := hm.name_inj hd he hfront
    obtain rfl := Option.some.inj (hd.symm.trans he)
    rw [hteq, hueq, hparts]

/-- What ends the text of a type that hangs together as closely as this. -/
def enders : (rank : Nat) → List Char
  | 0 => ['&', '|', ',', '>']
  | 1 => ['|', ',', '>']
  | _ => [',', '>']

/-- The text is at its end, or goes on with one of these. -/
def Stops (rank : Nat) (rest : List Char) : Prop := ∀ c ∈ rest.head?, c ∈ enders rank

theorem enders_subset (n : Nat) : enders (n + 1) ⊆ enders n := by
  match n with
  | 0 => decide
  | 1 => decide
  | _ + 2 => exact List.Subset.refl _

theorem Stops.of_succ {n : Nat} (h : Stops (n + 1) rest) : Stops n rest := fun c hc => enders_subset n (h c hc)

theorem stops_cons {n : Nat} (h : mark ∈ enders n) (rest : List Char) : Stops n (mark :: rest) :=
  fun _ hc => Option.some.inj hc ▸ h

theorem mark_mem_enders {n : Nat} (hj : j.rank = n + 1) : j.mark ∈ enders n ∧ j.mark ∉ enders (n + 1) := by
  cases j <;> cases hj <;> decide

/-- A text that starts with the type, and goes on as behind types of this rank, starts with no other such type. -/
def Reads (m : Model) (n : Nat) (t : Ty) : Prop :=
  ∀ u rest rest', m.InLayers u → u.rank ≤ n → Stops n rest → Stops n rest' →
    m.chars t ++ rest = m.chars u ++ rest' → t = u ∧ rest = rest'

/-- Types with a mark in front of each. -/
theorem reads_marked {n : Nat} (hmark : mark ∈ enders n) (hts : ∀ t ∈ ts, m.Reads n t)
    (hus : ∀ u ∈ us, m.InLayers u ∧ u.rank ≤ n) (hrest : Stops n rest) (hrest' : Stops n rest')
    (hne : mark ∉ rest.head?) (hne' : mark ∉ rest'.head?)
    (h : (ts.flatMap fun t => mark :: m.chars t) ++ rest = (us.flatMap fun u => mark :: m.chars u) ++ rest') :
    ts = us ∧ rest = rest' := by
  have hstops {vs : List Ty} {rest : List Char} (hrest : Stops n rest) :
      Stops n ((vs.flatMap fun v => mark :: m.chars v) ++ rest) := by
    cases vs with
    | nil => exact hrest
    | cons v vs => exact stops_cons hmark _
  induction ts generalizing us with
  | nil =>
    cases us with
    | nil => exact ⟨rfl, h⟩
    | cons u us => exact absurd (congrArg List.head? h : rest.head? = some mark) hne
  | cons t ts ih =>
    obtain ⟨ht, htail⟩ := List.forall_mem_cons.1 hts
    cases us with
    | nil => exact absurd (congrArg List.head? h.symm : rest'.head? = some mark) hne'
    | cons u us =>
      obtain ⟨⟨hu, hrank⟩, hutail⟩ := List.forall_mem_cons.1 hus
      simp only [List.flatMap_cons, List.cons_append, List.append_assoc, List.cons.injEq, true_and] at h
      obtain ⟨htu, htails⟩ := ht u _ _ hu hrank (hstops hrest) (hstops hrest') h
      obtain ⟨htsus, hrests⟩ := ih htail hutail htails
      exact ⟨by rw [htu, htsus], hrests⟩

theorem reads_joined {n : Nat} (hmark : mark ∈ enders n) (hnets : ts ≠ []) (hneus : us ≠ [])
    (hts : ∀ t ∈ ts, m.Reads n t) (hus : ∀ u ∈ us, m.InLayers u ∧ u.rank ≤ n) (hrest : Stops n rest)
    (hrest' : Stops n rest') (hne : mark ∉ rest.head?) (hne' : mark ∉ rest'.head?)
    (h : joined mark (ts.map m.chars) ++ rest = joined mark (us.map m.chars) ++ rest') : ts = us ∧ rest = rest' := by
  refine reads_marked hmark hts hus hrest hrest' hne hne' ?_
  match ts, us, hnets, hneus with
  | t :: ts, u :: us, _, _ =>
    -- the first member is marked, too, once a mark is put in front of the whole
    have hmarked := congrArg (mark :: ·) h
    simpa only [joined, List.map_cons, List.flatMap_map, List.flatMap_cons, List.cons_append] using hmarked

theorem reads_brackets (hts : ∀ t ∈ ts, m.Reads 2 t) (hus : ∀ u ∈ us, m.InLayers u) (hrest : Stops 0 rest)
    (hrest' : Stops 0 rest') (h : m.brackets ts ++ rest = m.brackets us ++ rest') : ts = us ∧ rest = rest' := by
  have hopen : '<' ∉ enders 0 := by decide
  match ts, us with
  | [], [] => exact ⟨rfl, h⟩
  | [], u :: us => exact absurd (hrest _ (congrArg List.head? h)) hopen
  | t :: ts, [] => exact absurd (hrest' _ (congrArg List.head? h.symm)) hopen
  | t :: ts, u :: us =>
    have hclosed (rest : List Char) : Stops 2 ('>' :: rest) := stops_cons (by decide) rest
    have hclose (rest : List Char) : ',' ∉ ('>' :: rest).head? := by simp
    simp only [brackets, List.cons_append, List.append_assoc, List.cons.injEq, true_and] at h
    obtain ⟨htsus, hrests⟩ := reads_joined (by decide) (List.cons_ne_nil t ts) (List.cons_ne_nil u us) hts
      (fun v hv => ⟨hus v hv, rank_le v⟩) (hclosed _) (hclosed _) (hclose _) (hclose _) h
    exact ⟨htsus, (List.cons.inj hrests).2⟩

/-- The text of a type of names is read in one way if the texts of its arguments are. -/
theorem Legible.reads_of_rank_eq_zero (hm : m.Legible) (ht : m.InLayers t) (hrank : t.rank = 0)
    (hargs : ∀ u ∈ t.parts, m.Reads 2 u) : m.Reads 0 t := by
  intro u rest rest' hu hranku hrest hrest' h
  rw [Nat.le_zero] at hranku
  have hleaves {args : List Ty} {rest : List Char} (hrest : Stops 0 rest) :
      Leaves (·.isAlphanum = true) (m.brackets args ++ rest) := by
    cases args with
    | nil =>
      have henders : (enders 0).all (fun c => !c.isAlphanum) = true := by decide
      intro c hc
      simpa using List.all_eq_true.1 henders c (hrest c hc)
    | cons => exact fun c hc => Option.some.inj hc ▸ by decide
  rw [chars_of_rank_eq_zero ht hrank, chars_of_rank_eq_zero hu hranku, List.append_assoc, List.append_assoc] at h
  obtain ⟨hfront, hbrackets⟩ := stretch_unique (hm.isAlphanum_front ht hrank) (hm.isAlphanum_front hu hranku)
    (hleaves hrest) (hleaves hrest') h
  suffices hparts : t.parts = u.parts ∧ rest = rest' from
    ⟨hm.eq_of_front_eq ht hu hrank hranku hfront hparts.1, hparts.2⟩
  exact reads_brackets hargs (fun v hv => hu.of_part hv) hrest hrest' hbrackets

/-- The text of a type is read in one way if the texts of its members are. -/
theorem reads_of_split {n : Nat} (hj : j.rank = n + 1) (ht : m.InLayers t)
    (hmembers : ∀ u ∈ j.split t, m.Reads n u) : m.Reads (n + 1) t := by
  intro u rest rest' hu hranku hrest hrest' h
  obtain ⟨hmark, hout⟩ := mark_mem_enders hj
  have hnotin {rest : List Char} (hrest : Stops (n + 1) rest) : j.mark ∉ rest.head? := fun hc => hout (hrest _ hc)
  have hsplitu : ∀ v ∈ j.split u, m.InLayers v ∧ v.rank ≤ n := by
    intro v hv
    obtain ⟨hlayers, hlt⟩ := hu.of_mem_split (hj ▸ hranku) hv
    exact ⟨hlayers, Nat.le_of_lt_succ (Nat.lt_of_lt_of_eq hlt hj)⟩
  rw [chars_split j t, chars_split j u] at h
  obtain ⟨hsplit, hrests⟩ := reads_joined hmark (ht.split_ne_nil j) (hu.split_ne_nil j) hmembers hsplitu
    hrest.of_succ hrest'.of_succ (hnotin hrest) (hnotin hrest') h
  exact ⟨ht.split_inj hu hsplit, hrests⟩

/-- A type that is read in one way by itself is so as a part of looser types, too. -/
theorem Reads.mono {n : Nat} (h : m.Reads t.rank t) (ht : m.InLayers t) (hle : t.rank ≤ n) (hn : n ≤ 2) :
    m.Reads n t := by
  induction hle with
  | refl => exact h
  | @step n hle ih =>
    have hj : ∃ j : Joint, j.rank = n + 1 := by
      match n, hn with
      | 0, _ => exact ⟨.intersection, rfl⟩
      | 1, _ => exact ⟨.union, rfl⟩
    obtain ⟨j, hj⟩ := hj
    -- a union or intersection of the type alone reads like the type
    refine reads_of_split hj ht ?_
    rw [j.split_of_rank_lt (hj ▸ Nat.lt_succ_of_le hle)]
    exact List.forall_mem_singleton.2 (ih (Nat.le_of_succ_le hn))

/-- **The text of a type in layers is read in one way**, whatever the type is a part of. -/
theorem Legible.reads (hm : m.Legible) (ht : m.InLayers t) : m.Reads t.rank t := by
  induction ht with
  | nothing => exact hm.reads_of_rank_eq_zero .nothing rfl nofun
  | param hp => exact hm.reads_of_rank_eq_zero (.param hp) rfl nofun
  | @applied d args hd hargs ih =>
    exact hm.reads_of_rank_eq_zero (.applied hd hargs) rfl fun u hu =>
      (ih u hu).mono (hargs u hu) (rank_le u) (Nat.le_refl 2)
  | @wrap j ms h hms ih =>
    -- the members hang together more closely, so that they can be read as such of the rank below
    obtain ⟨n, hj⟩ := Nat.exists_eq_succ_of_ne_zero (Nat.ne_of_gt j.rank_pos)
    rw [j.rank_wrap, hj]
    refine reads_of_split hj (.wrap h hms) ?_
    rw [j.split_wrap]
    intro u hu
    have hle : u.rank ≤ n := Nat.le_of_lt_succ (Nat.lt_of_lt_of_eq (hms.2 u hu) hj)
    have hn : n.succ ≤ 2 := hj ▸ j.rank_le_union
    exact (ih u hu).mono (h u hu) hle (Nat.le_of_succ_le hn)

/-- Types in layers are told apart by their texts. -/
theorem Legible.eq_of_chars_eq (hm : m.Legible) (ht : m.InLayers t) (hu : m.InLayers u) (h : m.chars t = m.chars u) :
    t = u := by
  have hreads : m.Reads 2 t := (hm.reads ht).mono ht (rank_le t) (Nat.le_refl 2)
  refine (hreads u [] [] hu (rank_le u) nofun nofun ?_).1
  rw [List.append_nil, List.append_nil, h]

/-- **Types read alike exactly if the same type is read**, the one where intersections bind more closely than unions.
Types in which no union is a member of an intersection are read as they are, and so are told apart by how they read. -/
theorem typeName_eq_iff (hm : m.Legible) (hparameters : ∀ d, ∀ p ∈ m.typeParametersOf d, m.IsParameter p)
    (ht : m.HasMade t) (hu : m.HasMade u) :
    (m.typeName t = m.typeName u ↔ t.reread = u.reread) ∧
      (t.Layered → u.Layered → m.typeName t = m.typeName u → t = u) := by
  have hne (j : Joint) (ms : List Ty) : Members j ms → ms ≠ [] := Members.ne_nil
  have htmade := ht.composed hparameters
  have humade := hu.composed hparameters
  have hiff : m.typeName t = m.typeName u ↔ t.reread = u.reread := by
    rw [typeName_eq_iff_chars, ← chars_reread hne htmade, ← chars_reread hne humade]
    refine ⟨fun h => ?_, fun h => by rw [h]⟩
    exact hm.eq_of_chars_eq (htmade.spelled hne).ofSummands (humade.spelled hne).ofSummands h
  refine ⟨hiff, fun htlayered hulayered h => ?_⟩
  rw [← htmade.layered_iff.1 htlayered, ← humade.layered_iff.1 hulayered, hiff.1 h]

/-- Interfaces `A`, `B` and `C`. -/
def threeInterfaces : Model :=
  (new "lang").buildAll [.addInterface ⟨0⟩ "A", .addInterface ⟨0⟩ "B", .addInterface ⟨0⟩ "C"]

/-- A class `Set` is added that is generic in `Item`. -/
def threeInterfacesAndSet : Model :=
  threeInterfaces.buildAll [.addClass ⟨0⟩ "Set", .addTypeParameter ⟨5⟩ "Item" .covariant]

/-- `A` beside `B&C`. -/
def besideIntersection (m : Model) : Ty := unite [m.typeOf ⟨2⟩, intersect [m.typeOf ⟨3⟩, m.typeOf ⟨4⟩]]

/-- Both `A|B` and `C`. -/
def intersectionWithUnion (m : Model) : Ty := intersect [unite [m.typeOf ⟨2⟩, m.typeOf ⟨3⟩], m.typeOf ⟨4⟩]

theorem legible_threeInterfaces : threeInterfaces.Legible := ⟨by decide, by decide, by decide⟩

theorem hasMade_pair {t u : Ty} (ht : m.HasMade t) (hu : m.HasMade u) : ∀ v ∈ [t, u], m.HasMade v :=
  List.forall_mem_cons.2 ⟨ht, List.forall_mem_singleton.2 hu⟩

theorem hasMade_besideIntersection {earlier : Model} (h : earlier.Precedes m) :
    m.HasMade earlier.besideIntersection :=
  .unite (hasMade_pair (.typeOf h _) (.intersect (hasMade_pair (.typeOf h _) (.typeOf h _))))

theorem hasMade_intersectionWithUnion (m : Model) : m.HasMade m.intersectionWithUnion :=
  have h := Precedes.refl m
  .intersect (hasMade_pair (.unite (hasMade_pair (.typeOf h _) (.typeOf h _))) (.typeOf h _))

/-- Where brackets close is read: `Set<A|B&C>` is not `Set<A>|B&C`. -/
theorem typeName_ne_of_brackets :
    let m := threeInterfacesAndSet
    let t := Ty.applied ⟨5⟩ [threeInterfaces.besideIntersection]
    let u := Ty.unite [.applied ⟨5⟩ [m.typeOf ⟨2⟩], Ty.intersect [m.typeOf ⟨3⟩, m.typeOf ⟨4⟩]]
    m.Legible ∧ m.HasMade t ∧ m.HasMade u ∧ (m.typeName t = m.typeName u ↔ t.reread = u.reread) ∧
      m.typeName t ≠ m.typeName u := by
  intro m t u
  have hlegible : m.Legible := ⟨by decide, by decide, by decide⟩
  have hparameters (d : DeclId) (p : DeclId) (hp : p ∈ m.typeParametersOf d) : m.IsParameter p :=
    (((disciplined_new "lang").buildAll _).buildAll _).isParameter d hp
  have hm := Precedes.refl m
  have ht : m.HasMade t := by
    refine .apply (d := ⟨5⟩) hm (List.forall_mem_singleton.2 ?_) rfl
    exact hasMade_besideIntersection (precedes_buildAll threeInterfaces _)
  have hu : m.HasMade u := by
    refine .unite (hasMade_pair (.apply (d := ⟨5⟩) hm (List.forall_mem_singleton.2 (.typeOf hm ⟨2⟩)) rfl) ?_)
    exact .intersect (hasMade_pair (.typeOf hm _) (.typeOf hm _))
  obtain ⟨hiff, hunique⟩ := typeName_eq_iff hlegible hparameters ht hu
  refine ⟨hlegible, ht, hu, hiff, fun h => ?_⟩
  have htlayered : t.Layered := (ht.composed hparameters).layered_iff.2 (by decide)
  have hulayered : u.Layered := (hu.composed hparameters).layered_iff.2 (by decide)
  exact absurd (hunique htlayered hulayered h) (by decide)

/-- Different types that read `A|B&C`. -/
theorem typeName_besideIntersection_eq :
    let m := threeInterfaces
    m.Legible ∧ (∀ decl ∈ m.declarations.toList, decl.name ≠ "") ∧ m.HasMade m.besideIntersection ∧
      m.HasMade m.intersectionWithUnion ∧ m.typeName m.besideIntersection = m.typeName m.intersectionWithUnion ∧
      m.besideIntersection ≠ m.intersectionWithUnion := by
  exact ⟨legible_threeInterfaces, by decide, hasMade_besideIntersection (.refl _), hasMade_intersectionWithUnion _,
    by decide, by decide⟩

end Model

end SemCheck
