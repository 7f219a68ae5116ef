import Mathlib.Data.List.Induction
import SemCheck.Message
import SemCheck.Proofs.Text.Stretch

/-!
# Filling in all arguments at once

Arguments are filled in one after another, each into the text that the ones before have left. Filling in all of them at
once (`fillAtOnce`) comes to the same as long as no argument makes a new placeholder for one that is filled in later, by
itself or with what stands beside it (`Undisturbed`), which is the case for messages whose arguments have no opening
braces (`text_eq_fillAtOnce`).

The numbers of placeholders are counted. Filling in the arguments so far keeps all placeholders of the next one
(`occurrences_le_substitute`). If there are no more than before, they are the template's, and the next argument comes to
their places (`replace_substitute`). If there are more, the empty argument shows it: too many placeholders go away
(`occurrences_eq_of_replace_substitute`). Main statement: `fill_eq_fillAtOnce`.
-/

namespace SemCheck.Text

variable {i j n : Nat} {a pat new arg text template rest : List Char} {args : List (List Char)}

/-! ## Placeholders -/

theorem isDigit_of_mem_digits {c : Char} (h : c ∈ Nat.toDigits 10 i) : c.isDigit = true :=
  Nat.isDigit_of_mem_toDigits (by omega) (by omega) h

/-- No two placeholders stand at the front of one text. -/
theorem placeholder_append_inj {rest' : List Char} (h : placeholder i ++ rest = placeholder j ++ rest') :
    i = j ∧ rest = rest' := by
  have hends (rest : List Char) : Leaves (fun c : Char => c.isDigit = true) ('\x7d' :: rest) := by
    rintro c ⟨⟩
    decide
  simp only [placeholder, List.cons_append, List.append_assoc, List.nil_append, List.cons.injEq, true_and] at h
  obtain ⟨hdigits, hrest⟩ := stretch_unique (fun _ => isDigit_of_mem_digits) (fun _ => isDigit_of_mem_digits)
    (hends rest) (hends rest') h
  have hnumber := congrArg (Nat.ofDigitChars 10 · 0) hdigits
  simp only [Nat.ofDigitChars_ten_toDigits] at hnumber
  exact ⟨hnumber, (List.cons.inj hrest).2⟩

theorem placeholder_prefix_append_iff : placeholder j <+: placeholder i ++ rest ↔ j = i := by
  constructor
  · rintro ⟨rest', h⟩
    exact (placeholder_append_inj h).1
  · rintro rfl
    exact List.prefix_append _ _

/-- A placeholder opens with its brace, and has no other. -/
theorem exists_placeholder_eq (i : Nat) : ∃ inner, placeholder i = '\x7b' :: inner ∧ '\x7b' ∉ inner := by
  refine ⟨_, rfl, fun h => ?_⟩
  rcases List.mem_append.1 h with h | h
  · exact absurd (isDigit_of_mem_digits h) (by decide)
  · exact absurd (List.mem_singleton.1 h) (by decide)

theorem placeholder_ne_nil (i : Nat) : placeholder i ≠ [] := List.cons_ne_nil _ _

theorem not_placeholder_prefix_cons {c : Char} (hc : c ≠ '\x7b') : ¬ placeholder i <+: c :: rest := by
  rintro ⟨rest', h⟩
  exact hc (List.cons.inj h).1.symm

/-- A text is taken apart into placeholders of the numbers in `P` and what stands between them. -/
theorem template_induct (P : Nat → Prop) {motive : List Char → Prop} (nil : motive [])
    (hole : ∀ i rest, P i → motive rest → motive (placeholder i ++ rest))
    (char : ∀ c rest, (∀ i, P i → ¬ placeholder i <+: c :: rest) → motive rest → motive (c :: rest))
    (text : List Char) : motive text :=
  match text with
  | [] => nil
  | c :: rest => by
    by_cases h : ∃ i, P i ∧ placeholder i <+: c :: rest
    · obtain ⟨i, hi, behind, hbehind⟩ := h
      have hshorter : behind.length < (c :: rest).length := by
        rw [← hbehind, List.length_append]
        exact Nat.lt_add_of_pos_left (Nat.succ_pos _)
      rw [← hbehind]
      exact hole i behind hi (template_induct P nil hole char behind)
    · refine char c rest (fun i hi hstart => h ⟨i, hi, hstart⟩) (template_induct P nil hole char rest)
termination_by text.length
decreasing_by
  · exact hshorter
  · exact Nat.lt_add_one _

/-! ## Occurrences -/

/-- How often a pattern occurs in a text. -/
def occurrences (pat : List Char) : List Char → Nat
  | [] => 0
  | c :: rest => (if pat.isPrefixOf (c :: rest) then 1 else 0) + occurrences pat rest

theorem occurrences_cons_of_start {c : Char} (h : pat <+: c :: rest) :
    occurrences pat (c :: rest) = 1 + occurrences pat rest := by
  rw [occurrences, if_pos (List.isPrefixOf_iff_prefix.2 h)]

theorem occurrences_cons_of_not_start {c : Char} (h : ¬ pat <+: c :: rest) :
    occurrences pat (c :: rest) = occurrences pat rest := by
  rw [occurrences, if_neg (mt List.isPrefixOf_iff_prefix.1 h), Nat.zero_add]

theorem occurrences_append_of_not_mem (h : '\x7b' ∉ a) (rest : List Char) :
    occurrences (placeholder i) (a ++ rest) = occurrences (placeholder i) rest := by
  induction a with
  | nil => rfl
  | cons c a ih =>
    rw [List.mem_cons, not_or] at h
    rw [List.cons_append, occurrences_cons_of_not_start (not_placeholder_prefix_cons (Ne.symm h.1)), ih h.2]

theorem occurrences_placeholder_append (j i : Nat) (rest : List Char) :
    occurrences (placeholder j) (placeholder i ++ rest) =
      (if j = i then 1 else 0) + occurrences (placeholder j) rest := by
  obtain ⟨inner, heq, hinner⟩ := exists_placeholder_eq i
  have hstart : placeholder j <+: '\x7b' :: (inner ++ rest) ↔ j = i := by
    rw [← List.cons_append, ← heq]
    exact placeholder_prefix_append_iff
  rw [heq, List.cons_append]
  split
  · next h => rw [occurrences_cons_of_start (hstart.2 h), occurrences_append_of_not_mem hinner]
  · next h => rw [occurrences_cons_of_not_start (mt hstart.1 h), occurrences_append_of_not_mem hinner, Nat.zero_add]

theorem occurrences_placeholder_append_self (i : Nat) (rest : List Char) :
    occurrences (placeholder i) (placeholder i ++ rest) = 1 + occurrences (placeholder i) rest := by
  rw [occurrences_placeholder_append, if_pos rfl]

theorem occurrences_placeholder_append_of_lt (h : i < j) (rest : List Char) :
    occurrences (placeholder j) (placeholder i ++ rest) = occurrences (placeholder j) rest := by
  rw [occurrences_placeholder_append, if_neg (Nat.ne_of_gt h), Nat.zero_add]

theorem occurrences_le_append (pat a rest : List Char) : occurrences pat rest ≤ occurrences pat (a ++ rest) := by
  induction a with
  | nil => exact Nat.le_refl _
  | cons c a ih =>
    rw [List.cons_append, occurrences]
    exact Nat.le_add_left_of_le ih

/-! ## Replacing -/

theorem replaceFrom_append (pat new a rest : List Char) :
    replaceFrom pat new a.length (a ++ rest) = replace pat new rest := by
  induction a with
  | nil => rfl
  | cons c a ih => exact ih

theorem replace_append_self (h : pat ≠ []) (new rest : List Char) :
    replace pat new (pat ++ rest) = new ++ replace pat new rest := by
  cases pat with
  | nil => exact absurd rfl h
  | cons c pat =>
    have hstart : (c :: pat).isPrefixOf (c :: (pat ++ rest)) = true :=
      List.isPrefixOf_iff_prefix.2 (List.prefix_append (c :: pat) rest)
    rw [replace, List.cons_append, replaceFrom, if_pos hstart, List.length_cons, Nat.add_sub_cancel,
      replaceFrom_append]

theorem replace_cons_of_not_start {c : Char} (h : ¬ pat <+: c :: rest) :
    replace pat new (c :: rest) = c :: replace pat new rest := by
  rw [replace, replaceFrom, if_neg (mt List.isPrefixOf_iff_prefix.1 h)]
  rfl

/-- What is free of the pattern stays, even with what follows. -/
theorem replace_append_of_occurrences_eq (h : occurrences pat (a ++ rest) = occurrences pat rest) :
    replace pat new (a ++ rest) = a ++ replace pat new rest := by
  induction a with
  | nil => rfl
  | cons c a ih =>
    have hle := occurrences_le_append pat a rest
    by_cases hstart : pat <+: c :: (a ++ rest)
    · rw [List.cons_append, occurrences_cons_of_start hstart] at h
      omega
    · rw [List.cons_append, occurrences_cons_of_not_start hstart] at h
      rw [List.cons_append, replace_cons_of_not_start hstart, ih h, List.cons_append]

/-! ## All at once -/

/-- The number below `n` whose placeholder stands at the front of a text. -/
def holeAt? (n : Nat) (text : List Char) : Option Nat :=
  (List.range n).find? fun i => (placeholder i).isPrefixOf text

/-- `substitute` with the first `skip` characters belonging to a placeholder already filled. -/
def substituteFrom (args : List (List Char)) : (skip : Nat) → List Char → List Char
  | _, [] => []
  | skip + 1, _ :: rest => substituteFrom args skip rest
  | 0, c :: rest =>
    match holeAt? args.length (c :: rest) with
    | some i => args.getD i [] ++ substituteFrom args ((placeholder i).length - 1) rest
    | none => c :: substituteFrom args 0 rest

/-- The template with its arguments at the places of their numbers, and all else as it is. -/
def substitute (args : List (List Char)) (template : List Char) : List Char := substituteFrom args 0 template

theorem holeAt?_placeholder (h : i < n) (rest : List Char) : holeAt? n (placeholder i ++ rest) = some i := by
  rw [holeAt?, List.find?_range_eq_some]
  refine ⟨List.isPrefixOf_iff_prefix.2 (List.prefix_append _ _), List.mem_range.2 h, fun j hj => ?_⟩
  rw [Bool.not_eq_true', Bool.eq_false_iff]
  intro hstart
  exact absurd (placeholder_prefix_append_iff.1 (List.isPrefixOf_iff_prefix.1 hstart)) (Nat.ne_of_lt hj)

theorem holeAt?_eq_none_iff : holeAt? n text = none ↔ ∀ i < n, ¬ placeholder i <+: text := by
  simp [holeAt?, List.isPrefixOf_iff_prefix]

theorem substituteFrom_append (args : List (List Char)) (a rest : List Char) :
    substituteFrom args a.length (a ++ rest) = substitute args rest := by
  induction a with
  | nil => rfl
  | cons c a ih => exact ih

/-- A placeholder of an argument is filled. -/
theorem substitute_placeholder (h : args[i]? = some arg) (rest : List Char) :
    substitute args (placeholder i ++ rest) = arg ++ substitute args rest := by
  obtain ⟨inner, heq, -⟩ := exists_placeholder_eq i
  have hlength : i < args.length := (List.getElem?_eq_some_iff.1 h).1
  have hhole := holeAt?_placeholder hlength rest
  rw [heq, List.cons_append] at hhole
  rw [heq, List.cons_append, substitute, substituteFrom]
  simp only [hhole, heq, List.length_cons, Nat.add_sub_cancel, substituteFrom_append, List.getD_eq_getElem?_getD, h,
    Option.getD_some]

/-- All else is copied. -/
theorem substitute_cons {c : Char} (h : ∀ i < args.length, ¬ placeholder i <+: c :: rest) :
    substitute args (c :: rest) = c :: substitute args rest := by
  rw [substitute, substituteFrom]
  simp only [holeAt?_eq_none_iff.2 h]
  rfl

theorem substitute_nil (template : List Char) : substitute [] template = template := by
  induction template with
  | nil => rfl
  | cons c rest ih => rw [substitute_cons fun _ hi => absurd hi (Nat.not_lt_zero _), ih]

theorem substitute_append_of_not_mem (h : '\x7b' ∉ a) (rest : List Char) :
    substitute args (a ++ rest) = a ++ substitute args rest := by
  induction a with
  | nil => rfl
  | cons c a ih =>
    rw [List.mem_cons, not_or] at h
    rw [List.cons_append, substitute_cons fun i _ => not_placeholder_prefix_cons (Ne.symm h.1), ih h.2,
      List.cons_append]

/-- A placeholder without an argument is copied. -/
theorem substitute_placeholder_of_le (h : args.length ≤ i) (rest : List Char) :
    substitute args (placeholder i ++ rest) = placeholder i ++ substitute args rest := by
  obtain ⟨inner, heq, hinner⟩ := exists_placeholder_eq i
  have hnone : ∀ j < args.length, ¬ placeholder j <+: '\x7b' :: (inner ++ rest) := by
    intro j hj hstart
    rw [← List.cons_append, ← heq] at hstart
    exact absurd (placeholder_prefix_append_iff.1 hstart) (Nat.ne_of_lt (Nat.lt_of_lt_of_le hj h))
  rw [heq, List.cons_append, substitute_cons hnone, substitute_append_of_not_mem hinner, List.cons_append]

/-! ## One argument more -/

/-- A template is taken apart into placeholders of the arguments, those of the next argument and other text. -/
theorem filling_induct (args : List (List Char)) {motive : List Char → Prop} (nil : motive [])
    (filled : ∀ i arg rest, args[i]? = some arg → i < args.length → motive rest → motive (placeholder i ++ rest))
    (next : ∀ rest, motive rest → motive (placeholder args.length ++ rest))
    (char : ∀ c rest, (∀ i ≤ args.length, ¬ placeholder i <+: c :: rest) → motive rest → motive (c :: rest))
    (template : List Char) : motive template := by
  refine template_induct (· ≤ args.length) nil (fun i rest hi ih => ?_) char template
  rcases Nat.lt_or_eq_of_le hi with hi | rfl
  · exact filled i _ rest (List.getElem?_eq_getElem hi) hi ih
  · exact next rest ih

theorem getElem?_concat_of_lt (h : args[i]? = some arg) (hi : i < args.length) (new : List Char) :
    (args ++ [new])[i]? = some arg := (List.getElem?_append_left hi).trans h

/-- What is copied is copied with one argument more, too. -/
theorem substitute_concat_cons {c : Char} (h : ∀ i ≤ args.length, ¬ placeholder i <+: c :: rest) (new : List Char) :
    substitute (args ++ [new]) (c :: rest) = c :: substitute (args ++ [new]) rest := by
  refine substitute_cons fun i hi => h i ?_
  rwa [List.length_append, List.length_singleton, Nat.lt_succ_iff] at hi

/-- The placeholders that have no argument are still there. -/
theorem occurrences_le_substitute (args : List (List Char)) (template : List Char) :
    occurrences (placeholder args.length) template ≤
      occurrences (placeholder args.length) (substitute args template) := by
  induction template using filling_induct args with
  | nil => exact Nat.le_refl 0
  | filled i arg rest harg hi ih =>
    rw [substitute_placeholder harg, occurrences_placeholder_append_of_lt hi]
    exact Nat.le_trans ih (occurrences_le_append _ _ _)
  | next rest ih =>
    rw [substitute_placeholder_of_le (Nat.le_refl _), occurrences_placeholder_append_self,
      occurrences_placeholder_append_self]
    exact Nat.add_le_add_left ih _
  | char c rest hnone ih =>
    rw [substitute_cons fun i hi => hnone i (Nat.le_of_lt hi), occurrences_cons_of_not_start (hnone _ (Nat.le_refl _))]
    exact Nat.le_trans ih (occurrences_le_append _ [c] _)

/-- If there are no more placeholders than in the template, there are none that what has been put in has made. -/
theorem occurrences_substitute_eq
    (h : occurrences (placeholder args.length) (a ++ substitute args rest) =
      occurrences (placeholder args.length) rest) :
    occurrences (placeholder args.length) (substitute args rest) = occurrences (placeholder args.length) rest :=
  Nat.le_antisymm (h ▸ occurrences_le_append _ a _) (occurrences_le_substitute args rest)

/-- If no placeholder has come up, the next argument can be filled in after the others. -/
theorem replace_substitute (arg : List Char)
    (h : occurrences (placeholder args.length) (substitute args template) =
      occurrences (placeholder args.length) template) :
    replace (placeholder args.length) arg (substitute args template) = substitute (args ++ [arg]) template := by
  induction template using filling_induct args with
  | nil => rfl
  | filled i old rest hold hi ih =>
    rw [substitute_placeholder hold, occurrences_placeholder_append_of_lt hi] at h
    have hrest := occurrences_substitute_eq h
    rw [substitute_placeholder hold, replace_append_of_occurrences_eq (h.trans hrest.symm), ih hrest,
      substitute_placeholder (getElem?_concat_of_lt hold hi arg)]
  | next rest ih =>
    rw [substitute_placeholder_of_le (Nat.le_refl _), occurrences_placeholder_append_self,
      occurrences_placeholder_append_self, Nat.add_left_cancel_iff] at h
    rw [substitute_placeholder_of_le (Nat.le_refl _), replace_append_self (placeholder_ne_nil _), ih h,
      substitute_placeholder (List.getElem?_concat_length)]
  | char c rest hnone ih =>
    rw [substitute_cons fun i hi => hnone i (Nat.le_of_lt hi), occurrences_cons_of_not_start (hnone _ (Nat.le_refl _)),
      ← List.singleton_append] at h
    have hrest := occurrences_substitute_eq h
    rw [substitute_cons fun i hi => hnone i (Nat.le_of_lt hi), ← List.singleton_append,
      replace_append_of_occurrences_eq (h.trans hrest.symm), ih hrest, substitute_concat_cons hnone]
    rfl

/-! ## All arguments -/

theorem fillFrom_append (i : Nat) (args args' : List (List Char)) (text : List Char) :
    fillFrom i (args ++ args') text = fillFrom (i + args.length) args' (fillFrom i args text) := by
  induction args generalizing i text with
  | nil => rfl
  | cons arg args ih =>
    rw [List.cons_append, fillFrom, ih, List.length_cons, fillFrom, Nat.add_assoc, Nat.add_comm 1]

theorem fillFrom_concat (args : List (List Char)) (arg text : List Char) :
    fillFrom 0 (args ++ [arg]) text = replace (placeholder args.length) arg (fillFrom 0 args text) := by
  rw [fillFrom_append, Nat.zero_add, fillFrom, fillFrom]

/-- Filling in the arguments before one makes no new placeholder for it: the template has all there are. -/
def Undisturbed (template : List Char) (args : List (List Char)) : Prop :=
  ∀ i < args.length,
    occurrences (placeholder i) (substitute (args.take i) template) = occurrences (placeholder i) template

theorem undisturbed_concat_iff :
    Undisturbed template (args ++ [arg]) ↔
      Undisturbed template args ∧
        occurrences (placeholder args.length) (substitute args template) =
          occurrences (placeholder args.length) template := by
  have htake {i : Nat} (hi : i < args.length) : (args ++ [arg]).take i = args.take i :=
    List.take_append_of_le_length (Nat.le_of_lt hi)
  constructor
  · intro h
    constructor
    · intro i hi
      rw [← htake hi]
      exact h i (by rw [List.length_append]; exact Nat.lt_add_right _ hi)
    · have hlast := h args.length (by rw [List.length_append]; exact Nat.lt_add_one _)
      rwa [List.take_left] at hlast
  · rintro ⟨h, hlast⟩ i hi
    rw [List.length_append, List.length_singleton, Nat.lt_succ_iff_lt_or_eq] at hi
    rcases hi with hi | rfl
    · rw [htake hi]
      exact h i hi
    · rwa [List.take_left]

theorem fillFrom_of_undisturbed (h : Undisturbed template args) :
    fillFrom 0 args template = substitute args template := by
  induction args using List.reverseRecOn with
  | nil => exact (substitute_nil template).symm
  | append_singleton args arg ih =>
    obtain ⟨h, hlast⟩ := undisturbed_concat_iff.1 h
    rw [fillFrom_concat, ih h, replace_substitute arg hlast]

/-! ## How long the result is -/

theorem length_replace_nil (i : Nat) (text : List Char) :
    (replace (placeholder i) [] text).length + occurrences (placeholder i) text * (placeholder i).length =
      text.length := by
  induction text using template_induct (· = i) with
  | nil => exact (Nat.zero_add _).trans (Nat.zero_mul _)
  | hole j rest hj ih =>
    subst hj
    rw [replace_append_self (placeholder_ne_nil _), occurrences_placeholder_append_self, List.nil_append,
      List.length_append, Nat.add_mul]
    omega
  | char c rest hnone ih =>
    rw [replace_cons_of_not_start (hnone i rfl), occurrences_cons_of_not_start (hnone i rfl), List.length_cons,
      List.length_cons]
    omega

theorem length_substitute_nil (args : List (List Char)) (template : List Char) :
    (substitute (args ++ [[]]) template).length +
        occurrences (placeholder args.length) template * (placeholder args.length).length =
      (substitute args template).length := by
  induction template using filling_induct args with
  | nil => exact (Nat.zero_add _).trans (Nat.zero_mul _)
  | filled i arg rest harg hi ih =>
    rw [substitute_placeholder harg, substitute_placeholder (getElem?_concat_of_lt harg hi []),
      occurrences_placeholder_append_of_lt hi, List.length_append, List.length_append, Nat.add_assoc, ih]
  | next rest ih =>
    rw [substitute_placeholder_of_le (Nat.le_refl _), substitute_placeholder (List.getElem?_concat_length),
      occurrences_placeholder_append_self, List.nil_append, List.length_append, Nat.add_mul]
    omega
  | char c rest hnone ih =>
    rw [substitute_cons fun i hi => hnone i (Nat.le_of_lt hi), substitute_concat_cons hnone,
      occurrences_cons_of_not_start (hnone _ (Nat.le_refl _)), List.length_cons, List.length_cons]
    omega

/-- If a placeholder has come up, it is filled with the next argument, which makes a difference for the empty one. -/
theorem occurrences_eq_of_replace_substitute
    (h : replace (placeholder args.length) [] (substitute args template) = substitute (args ++ [[]]) template) :
    occurrences (placeholder args.length) (substitute args template) =
      occurrences (placeholder args.length) template := by
  have hreplace := length_replace_nil args.length (substitute args template)
  have hsubstitute := length_substitute_nil args template
  rw [h] at hreplace
  have hpos : 0 < (placeholder args.length).length := List.length_pos_iff.2 (placeholder_ne_nil _)
  exact Nat.eq_of_mul_eq_mul_right hpos (by omega)

theorem undisturbed_iff :
    Undisturbed template args ↔ ∀ i < args.length, ∀ arg,
      fillFrom 0 (args.take i ++ [arg]) template = substitute (args.take i ++ [arg]) template := by
  induction args using List.reverseRecOn with
  | nil => exact ⟨fun _ _ hi => absurd hi (Nat.not_lt_zero _), fun _ _ hi => absurd hi (Nat.not_lt_zero _)⟩
  | append_singleton args last ih =>
    have htake {i : Nat} (hi : i ≤ args.length) : (args ++ [last]).take i = args.take i :=
      List.take_append_of_le_length hi
    constructor
    · intro h i hi arg
      rw [List.length_append, List.length_singleton, Nat.lt_succ_iff] at hi
      obtain ⟨h, hlast⟩ := undisturbed_concat_iff.1 h
      rw [htake hi]
      rcases Nat.lt_or_eq_of_le hi with hi | rfl
      · exact ih.1 h i hi arg
      · rw [List.take_length]
        exact fillFrom_of_undisturbed (undisturbed_concat_iff.2 ⟨h, hlast⟩)
    · intro h
      have hargs : Undisturbed template args := by
        refine ih.2 fun i hi arg => ?_
        rw [← htake (Nat.le_of_lt hi)]
        exact h i (by rw [List.length_append]; exact Nat.lt_add_right _ hi) arg
      have hlast := h args.length (by rw [List.length_append]; exact Nat.lt_add_one _) []
      rw [List.take_left, fillFrom_concat, fillFrom_of_undisturbed hargs] at hlast
      exact undisturbed_concat_iff.2 ⟨hargs, occurrences_eq_of_replace_substitute hlast⟩

/-- The template with all arguments filled in at once. -/
def fillAtOnce (template : String) (args : List String) : String :=
  String.ofList (substitute (args.map String.toList) template.toList)

theorem fill_eq_fillAtOnce_iff {template : String} {args : List String} :
    fill template args = fillAtOnce template args ↔
      fillFrom 0 (args.map String.toList) template.toList = substitute (args.map String.toList) template.toList :=
  String.ofList_inj

/-- **Arguments are filled in as if at once** unless filling in the first of them makes a new placeholder for a later
one. This is exactly when it is so: otherwise there is an argument for that placeholder with which the text would be
another. -/
theorem fill_eq_fillAtOnce (template : String) (args : List String) :
    (Undisturbed template.toList (args.map String.toList) → fill template args = fillAtOnce template args) ∧
      (Undisturbed template.toList (args.map String.toList) ↔
        ∀ i < args.length, ∀ arg,
          fill template (args.take i ++ [arg]) = fillAtOnce template (args.take i ++ [arg])) := by
  constructor
  · exact fun h => fill_eq_fillAtOnce_iff.2 (fillFrom_of_undisturbed h)
  · rw [undisturbed_iff, List.length_map]
    refine forall₂_congr fun i hi => ⟨fun h arg => ?_, fun h arg => ?_⟩
    · rw [fill_eq_fillAtOnce_iff, List.map_append, List.map_take]
      exact h arg.toList
    · have harg := h (String.ofList arg)
      rw [fill_eq_fillAtOnce_iff, List.map_append, List.map_take, List.map_singleton, String.toList_ofList] at harg
      exact harg

/-- The first argument looks like the first placeholder, and the second one comes before it. -/
theorem fill_eq_fillAtOnce_ownPlaceholder :
    Undisturbed "\x7b1\x7d in \x7b0\x7d".toList (["\x7b0\x7d", "x"].map String.toList) ∧
      fill "\x7b1\x7d in \x7b0\x7d" ["\x7b0\x7d", "x"] = fillAtOnce "\x7b1\x7d in \x7b0\x7d" ["\x7b0\x7d", "x"] := by
  have h : Undisturbed "\x7b1\x7d in \x7b0\x7d".toList (["\x7b0\x7d", "x"].map String.toList) := by
    unfold Undisturbed
    decide +kernel
  exact ⟨h, (fill_eq_fillAtOnce _ _).1 h⟩

/-- An argument that is the placeholder of the next one is not kept as it is, nor is one that becomes such a placeholder
with the braces around it. -/
theorem fill_ne_fillAtOnce :
    fill "\x7b0\x7d" ["\x7b1\x7d", "x"] ≠ fillAtOnce "\x7b0\x7d" ["\x7b1\x7d", "x"] ∧
      fill "\x7b\x7b0\x7d\x7d" ["1", "x"] ≠ fillAtOnce "\x7b\x7b0\x7d\x7d" ["1", "x"] := by
  decide +kernel

/-! ## Messages -/

/-- Every opening brace is that of a placeholder, of a number below `n`. -/
def Flat (n : Nat) : List Char → Prop
  | [] => True
  | c :: rest => (c = '\x7b' → ∃ i < n, placeholder i <+: c :: rest) ∧ Flat n rest

instance (n : Nat) : (text : List Char) → Decidable (Flat n text)
  | [] => .isTrue trivial
  | _ :: rest =>
    have : Decidable (Flat n rest) := instDecidableFlat n rest
    inferInstanceAs (Decidable (_ ∧ _))

theorem Flat.of_append (h : Flat n (a ++ rest)) : Flat n rest := by
  induction a with
  | nil => exact h
  | cons c a ih => exact ih h.2

/-- Arguments without opening braces make no placeholders in a flat template. -/
theorem Flat.occurrences_substitute (hflat : Flat n template) (hargs : ∀ a ∈ args, '\x7b' ∉ a) (hj : args.length ≤ j) :
    occurrences (placeholder j) (substitute args template) = occurrences (placeholder j) template := by
  induction template using template_induct fun _ => True with
  | nil => rfl
  | hole i rest _ ih =>
    have ih := ih hflat.of_append
    rcases Nat.lt_or_ge i args.length with hi | hi
    · rw [substitute_placeholder (List.getElem?_eq_getElem hi),
        occurrences_append_of_not_mem (hargs _ (List.getElem_mem hi)),
        occurrences_placeholder_append_of_lt (Nat.lt_of_lt_of_le hi hj), ih]
    · rw [substitute_placeholder_of_le hi, occurrences_placeholder_append, occurrences_placeholder_append, ih]
  | char c rest hnone ih =>
    have hc : c ≠ '\x7b' := by
      intro hc
      obtain ⟨i, -, hstart⟩ := hflat.1 hc
      exact hnone i trivial hstart
    rw [substitute_cons fun i _ => hnone i trivial, occurrences_cons_of_not_start (not_placeholder_prefix_cons hc),
      occurrences_cons_of_not_start (not_placeholder_prefix_cons hc), ih hflat.2]

theorem Flat.undisturbed (hflat : Flat n template) (hargs : ∀ a ∈ args, '\x7b' ∉ a) : Undisturbed template args :=
  fun _ _ => hflat.occurrences_substitute (fun a ha => hargs a (List.mem_of_mem_take ha)) (List.length_take_le _ _)

theorem flat_template (m : Message) : Flat 3 m.template.toList := by cases m <;> decide +kernel

/-- **Messages say what they are about**, if no argument has an opening brace. -/
theorem text_eq_fillAtOnce (m : Message) {args : List String} (h : ∀ arg ∈ args, '\x7b' ∉ arg.toList) :
    m.text args = fillAtOnce m.template args :=
  fill_eq_fillAtOnce_iff.2 (fillFrom_of_undisturbed ((flat_template m).undisturbed (List.forall_mem_map.2 h)))

end SemCheck.Text
