import SemCheck.Options

/-!
# Options are read back

What `Options.toJson` writes is read as the options it was written from (`ofJson_toJson`): strings of any characters,
lists of any length, the empty list too, which is not taken for a missing field.

Each value is read back behind the blank of its line (`readBool_boolText`, `readStrings_listText`), then the lines one
after another (`readEntries_lines`), where the fields already read are those of the lines before.
-/

namespace SemCheck

namespace Json

theorem skipBlanks_of_isBlank {c : Char} (h : isBlank c = true) (cs : List Char) :
    skipBlanks (c :: cs) = skipBlanks cs :=
  List.dropWhile_cons_of_pos h

theorem skipBlanks_of_not_isBlank {c : Char} (h : isBlank c = false) (cs : List Char) :
    skipBlanks (c :: cs) = c :: cs :=
  List.dropWhile_cons_of_neg (by rw [h]; exact Bool.false_ne_true)

/-- Blanks and then a string. -/
theorem skipBlanks_quote {blanks : List Char} (h : blanks.all isBlank = true) (cs rest : List Char) :
    skipBlanks (blanks ++ (quote cs ++ rest)) = '"' :: (cs.flatMap escape ++ '"' :: rest) := by
  rw [skipBlanks, List.dropWhile_append_of_pos (List.all_eq_true.1 h), quote, List.cons_append, List.append_assoc]
  exact skipBlanks_of_not_isBlank rfl _

theorem readString_quoted (s : String) (rest : List Char) :
    readString ('"' :: (s.toList.flatMap escape ++ '"' :: rest)) = .ok (s, rest) := by
  rw [readString, skipBlanks_of_not_isBlank rfl]
  simp only [readText_quoted, Except.map, String.ofList_toList]

/-! ## Values -/

/-- A line of a list is read as its string, and the lines behind it as the others. -/
theorem readMoreStrings_line (s : String) (fuel : Nat) (rest : List Char) :
    readMoreStrings (fuel + 1) (",\n    ".toList ++ (quote s.toList ++ rest)) =
      (readMoreStrings fuel rest).map fun (ss, rest) => (s :: ss, rest) := by
  have hmark : ",\n    ".toList = ',' :: "\n    ".toList := rfl
  have hblanks : "\n    ".toList.all isBlank = true := rfl
  rw [hmark, List.cons_append, readMoreStrings, skipBlanks_of_not_isBlank rfl]
  simp only [skipBlanks_quote hblanks]
  show (readString _ >>= fun r => readMoreStrings fuel r.2 >>= fun r' => pure (r.1 :: r'.1, r'.2)) = _
  rw [readString_quoted]
  rfl

theorem readMoreStrings_lines (ss : List String) (rest : List Char) {fuel : Nat} (h : ss.length < fuel) :
    readMoreStrings fuel (ss.flatMap (fun s => ",\n    ".toList ++ quote s.toList) ++ ("\n  ]".toList ++ rest)) =
      .ok (ss, rest) := by
  induction ss generalizing fuel with
  | nil =>
    obtain ⟨fuel, rfl⟩ := Nat.exists_eq_succ_of_ne_zero (Nat.ne_zero_of_lt h)
    rfl
  | cons s ss ih =>
    obtain ⟨fuel, rfl⟩ := Nat.exists_eq_succ_of_ne_zero (Nat.ne_zero_of_lt h)
    rw [List.flatMap_cons, List.append_assoc, List.append_assoc, readMoreStrings_line,
      ih (Nat.lt_of_succ_lt_succ h)]
    rfl

theorem length_le_length_flatMap {α β : Type} {f : α → List β} {as : List α} (h : ∀ a ∈ as, f a ≠ []) :
    as.length ≤ (as.flatMap f).length := by
  induction as with
  | nil => exact Nat.le_refl 0
  | cons a as ih =>
    obtain ⟨ha, has⟩ := List.forall_mem_cons.1 h
    have hpos := List.length_pos_iff.2 ha
    rw [List.flatMap_cons, List.length_append, List.length_cons]
    have := ih has
    omega

theorem readStrings_listText (ss : List String) (rest : List Char) :
    readStrings (' ' :: (Options.listText ss ++ rest)) = .ok (ss, rest) := by
  rw [readStrings, skipBlanks_of_isBlank rfl]
  cases ss with
  | nil => rfl
  | cons s ss =>
    have hmark : "[\n    ".toList = '[' :: "\n    ".toList := rfl
    have hblanks : "\n    ".toList.all isBlank = true := rfl
    unfold Options.listText
    simp only [hmark, List.cons_append, List.append_assoc, skipBlanks_of_not_isBlank (c := '[') rfl,
      skipBlanks_quote hblanks]
    show (readString _ >>= fun r => readMoreStrings r.2.length.succ r.2 >>= fun r' => pure (r.1 :: r'.1, r'.2)) = _
    rw [readString_quoted]
    simp only [bind, Except.bind]
    rw [readMoreStrings_lines ss rest]
    · rfl
    · have hne (s : String) : ",\n    ".toList ++ quote s.toList ≠ [] :=
        List.append_ne_nil_of_right_ne_nil _ (List.cons_ne_nil _ _)
      rw [Nat.lt_succ_iff, List.length_append]
      exact Nat.le_add_right_of_le (length_le_length_flatMap fun s _ => hne s)

theorem readBool_boolText (b : Bool) (rest : List Char) :
    readBool (' ' :: (Options.boolText b ++ rest)) = .ok (b, rest) := by
  cases b <;> rfl

end Json

namespace Options

open Json

variable {o : Options} {d : Draft} {f : Field}

/-! ## Lines -/

/-- The draft with a field as `o` has it. -/
def Draft.take (d : Draft) (o : Options) : Field → Draft
  | .exemptPackages => { d with exemptPackages := o.exemptPackages }
  | .checkAssignment => { d with checkAssignment := o.checkAssignment }
  | .checkDecidability => { d with checkDecidability := o.checkDecidability }

theorem Draft.has_take (d : Draft) (o : Options) (f g : Field) : (d.take o f).has g = (decide (f = g) || d.has g) := by
  cases f <;> cases g <;> rfl

theorem readField_fieldText (d : Draft) (o : Options) (f : Field) (rest : List Char) :
    d.readField f (' ' :: (o.fieldText f ++ rest)) = .ok (d.take o f, rest) := by
  cases f with
  | exemptPackages => rw [Draft.readField, fieldText, readStrings_listText]; rfl
  | checkAssignment => rw [Draft.readField, fieldText, readBool_boolText]; rfl
  | checkDecidability => rw [Draft.readField, fieldText, readBool_boolText]; rfl

theorem Field.ofKey?_key (f : Field) : ofKey? f.key.toList = some f := by cases f <;> decide

/-- A line from its key on. -/
def Field.entry (f : Field) (o : Options) : List Char :=
  f.key.toList.flatMap escape ++ '"' :: ':' :: ' ' :: o.fieldText f

theorem skipBlanks_line (o : Options) (f : Field) (rest : List Char) :
    skipBlanks (o.line f ++ rest) = '"' :: (f.entry o ++ rest) := by
  have htext : o.line f ++ rest = "\n  ".toList ++ (quote f.key.toList ++ (':' :: ' ' :: (o.fieldText f ++ rest))) := by
    simp only [line, List.append_assoc]
    rfl
  rw [htext, skipBlanks_quote rfl]
  simp only [Field.entry, List.append_assoc, List.cons_append]

theorem readEntry_entry (h : d.has f = false) (rest : List Char) :
    d.readEntry (f.entry o ++ rest) = .ok (d.take o f, rest) := by
  rw [Draft.readEntry, Field.entry, List.append_assoc, List.cons_append, readText_quoted]
  simp only [bind, Except.bind, Field.ofKey?_key, h]
  exact readField_fieldText d o f rest

/-- Behind a line that is read come the lines of the other fields and the end. -/
def linesBehind (o : Options) : List Field → List Char
  | [] => ['\n', '\x7d']
  | f :: fs => ',' :: (o.line f ++ o.linesBehind fs)

theorem readEntries_lines {fs : List Field} (hnew : ∀ g ∈ f :: fs, d.has g = false) (hnodup : (f :: fs).Nodup)
    {fuel : Nat} (hfuel : fs.length < fuel) :
    d.readEntries fuel (f.entry o ++ o.linesBehind fs) = .ok ((f :: fs).foldl (·.take o ·) d, []) := by
  induction fs generalizing d f fuel with
  | nil =>
    obtain ⟨fuel, rfl⟩ := Nat.exists_eq_succ_of_ne_zero (Nat.ne_zero_of_lt hfuel)
    rw [Draft.readEntries, readEntry_entry (hnew f (List.mem_singleton_self f))]
    rfl
  | cons g fs ih =>
    obtain ⟨fuel, rfl⟩ := Nat.exists_eq_succ_of_ne_zero (Nat.ne_zero_of_lt hfuel)
    obtain ⟨hf, hnew⟩ := List.forall_mem_cons.1 hnew
    obtain ⟨hne, hnodup⟩ := List.nodup_cons.1 hnodup
    have hnew' : ∀ k ∈ g :: fs, (d.take o f).has k = false := by
      intro k hk
      rw [Draft.has_take, hnew k hk, Bool.or_false, decide_eq_false_iff_not]
      exact fun heq => hne (heq ▸ hk)
    rw [Draft.readEntries, readEntry_entry hf, linesBehind]
    simp only [bind, Except.bind, skipBlanks_of_not_isBlank (c := ',') rfl, skipBlanks_line]
    rw [ih hnew' hnodup (Nat.lt_of_succ_lt_succ hfuel)]
    rfl

/-- **Options survive being written and read**. -/
theorem ofJson_toJson (o : Options) : ofJson o.toJson = .ok o := by
  have htext : o.toJson.toList =
      '\x7b' :: (o.line .exemptPackages ++ o.linesBehind [.checkAssignment, .checkDecidability]) := by
    rw [toJson, String.toList_ofList]
    simp [toJsonChars, linesBehind]
  rw [ofJson, ofJsonChars, htext, skipBlanks_of_not_isBlank rfl]
  have hread : Draft.readObject (o.line .exemptPackages ++ o.linesBehind [.checkAssignment, .checkDecidability]) =
      .ok ([.exemptPackages, .checkAssignment, .checkDecidability].foldl (·.take o ·) {}, []) := by
    rw [Draft.readObject, skipBlanks_line]
    refine readEntries_lines (by decide) (by decide) (Nat.lt_succ_of_le ?_)
    simp only [linesBehind, line, List.length_append, List.length_cons]
    omega
  show (Draft.readObject _ >>= _) = _
  rw [hread]
  rfl

end Options

end SemCheck
