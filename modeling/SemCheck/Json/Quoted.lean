/-!
# JSON strings

`quote` writes a text between quotation marks, with escapes for the mark itself, the backslash and the control
characters. `readText` reads what follows an opening mark; an escape in hexadecimal digits stands for a UTF-16 code
unit, and the two halves of a pair come one right after the other. `skipText` passes over a string of which only the
outer form matters. Main statement: a quoted text is read back (`readText_quoted`).
-/

namespace SemCheck.Json

/-- Why a text cannot be read. -/
inductive Fault
  /-- Well-formed, but not a value of the wanted shape. -/
  | mistyped
  | malformed
  /-- Ends too early. -/
  | truncated
  deriving DecidableEq, Repr

/-! ## Writing -/

/-- The lower-case hexadecimal digit of a number below 16. -/
def hexDigit (n : Nat) : Char := if n < 10 then Char.ofNat (48 + n) else Char.ofNat (87 + n)

/-- The letter that stands for a character behind a backslash. -/
def shortEscape? (c : Char) : Option Char :=
  if c = '"' then some '"'
  else if c = '\\' then some '\\'
  else if c = '\x08' then some 'b'
  else if c = '\t' then some 't'
  else if c = '\n' then some 'n'
  else if c = '\x0c' then some 'f'
  else if c = '\r' then some 'r'
  else none

/-- A character as it stands in a string. -/
def escape (c : Char) : List Char :=
  match shortEscape? c with
  | some e => ['\\', e]
  | none =>
    if c.toNat < 32 then ['\\', 'u', '0', '0', hexDigit (c.toNat / 16), hexDigit (c.toNat % 16)]
    else [c]

def quote (cs : List Char) : List Char := '"' :: (cs.flatMap escape ++ ['"'])

/-! ## Reading -/

def hexValue? (c : Char) : Option Nat :=
  if '0' ≤ c ∧ c ≤ '9' then some (c.toNat - 48)
  else if 'a' ≤ c ∧ c ≤ 'f' then some (c.toNat - 87)
  else if 'A' ≤ c ∧ c ≤ 'F' then some (c.toNat - 55)
  else none

/-- The code unit of four hexadecimal digits. -/
def codeUnit? (a b c d : Char) : Option Nat := do
  let a ← hexValue? a
  let b ← hexValue? b
  let c ← hexValue? c
  let d ← hexValue? d
  return ((a * 16 + b) * 16 + c) * 16 + d

/-- The first half of a pair. -/
def isHighSurrogate (n : Nat) : Bool := 0xD800 ≤ n && n ≤ 0xDBFF

/-- The second half of a pair. -/
def isLowSurrogate (n : Nat) : Bool := 0xDC00 ≤ n && n ≤ 0xDFFF

def ofSurrogates (high low : Nat) : Char := Char.ofNat (0x10000 + (high - 0xD800) * 0x400 + (low - 0xDC00))

/-- The fault of a hexadecimal escape for which fewer than four characters are left: with four bytes or more it is
malformed, as some character is no digit. -/
def shortEscapeFault (rest : List Char) : Fault :=
  if rest.foldl (fun size c => size + c.utf8Size) 0 < 4 then .truncated else .malformed

/-- What a backslash and this character stand for. -/
def simpleEscape? (c : Char) : Option Char :=
  if c = '"' then some '"'
  else if c = '\\' then some '\\'
  else if c = '/' then some '/'
  else if c = 'b' then some '\x08'
  else if c = 'f' then some '\x0c'
  else if c = 'n' then some '\n'
  else if c = 'r' then some '\r'
  else if c = 't' then some '\t'
  else none

/-- Puts a character before a text read. -/
def push (c : Char) (r : Except Fault (List Char × List Char)) : Except Fault (List Char × List Char) :=
  r.map fun (cs, rest) => (c :: cs, rest)

/-- Reads up to the closing mark; the result is the text and what follows the mark. -/
def readText : List Char → Except Fault (List Char × List Char)
  | [] => .error .truncated
  | c :: rest =>
    if c = '"' then .ok ([], rest)
    else if c = '\\' then
      match rest with
      | [] => .error .truncated
      | e :: rest =>
        if e = 'u' then
          match rest with
          | h₁ :: h₂ :: h₃ :: h₄ :: rest =>
            match codeUnit? h₁ h₂ h₃ h₄ with
            | none => .error .malformed
            | some unit =>
              if isLowSurrogate unit then .error .malformed
              else if isHighSurrogate unit then
                match rest with
                | [] => .error .truncated
                | b :: rest =>
                  if b ≠ '\\' then .error .malformed
                  else
                    match rest with
                    | [] => .error .truncated
                    | u :: rest =>
                      if u ≠ 'u' then .error .malformed
                      else
                        match rest with
                        | l₁ :: l₂ :: l₃ :: l₄ :: rest =>
                          match codeUnit? l₁ l₂ l₃ l₄ with
                          | none => .error .malformed
                          | some low =>
                            if isLowSurrogate low then push (ofSurrogates unit low) (readText rest)
                            else .error .malformed
                        | rest => .error (shortEscapeFault rest)
              else push (Char.ofNat unit) (readText rest)
          | rest => .error (shortEscapeFault rest)
        else
          match simpleEscape? e with
          | some c => push c (readText rest)
          | none => .error .malformed
    else if c.toNat < 32 then .error .malformed
    else push c (readText rest)

/-- Passes over the rest of a string; halves of pairs may stand alone in it. -/
def skipText : List Char → Except Fault (List Char)
  | [] => .error .truncated
  | c :: rest =>
    if c = '"' then .ok rest
    else if c = '\\' then
      match rest with
      | [] => .error .truncated
      | e :: rest =>
        if e = 'u' then
          match rest with
          | h₁ :: h₂ :: h₃ :: h₄ :: rest =>
            if (codeUnit? h₁ h₂ h₃ h₄).isSome then skipText rest else .error .malformed
          | rest => .error (shortEscapeFault rest)
        else if (simpleEscape? e).isSome then skipText rest
        else .error .malformed
    else if c.toNat < 32 then .error .malformed
    else skipText rest

/-! ## Reading what was written -/

theorem readText_simple {e c : Char} (hu : e ≠ 'u') (h : simpleEscape? e = some c) (rest : List Char) :
    readText ('\\' :: e :: rest) = push c (readText rest) := by
  rw [readText.eq_def]
  simp [hu, h]

theorem readText_unit {h₁ h₂ h₃ h₄ : Char} {n : Nat} (h : codeUnit? h₁ h₂ h₃ h₄ = some n)
    (hlow : isLowSurrogate n = false) (hhigh : isHighSurrogate n = false) (rest : List Char) :
    readText ('\\' :: 'u' :: h₁ :: h₂ :: h₃ :: h₄ :: rest) = push (Char.ofNat n) (readText rest) := by
  rw [readText.eq_def]
  simp [h, hlow, hhigh]

theorem readText_plain {c : Char} (hquote : c ≠ '"') (hslash : c ≠ '\\') (hctl : ¬ c.toNat < 32) (rest : List Char) :
    readText (c :: rest) = push c (readText rest) := by
  rw [readText.eq_def]
  simp [hquote, hslash, hctl]

theorem codeUnit?_control : ∀ n < 32, codeUnit? '0' '0' (hexDigit (n / 16)) (hexDigit (n % 16)) = some n := by
  decide

theorem simpleEscape?_shortEscape {c e : Char} (h : shortEscape? c = some e) : e ≠ 'u' ∧ simpleEscape? e = some c := by
  unfold shortEscape? at h
  iterate 7
    split at h
    · next hc =>
      cases h
      subst hc
      decide
  cases h

theorem ne_of_shortEscape?_eq_none {c : Char} (h : shortEscape? c = none) : c ≠ '"' ∧ c ≠ '\\' := by
  unfold shortEscape? at h
  grind

theorem readText_escape (c : Char) (rest : List Char) : readText (escape c ++ rest) = push c (readText rest) := by
  unfold escape
  split
  · next e h =>
    obtain ⟨hu, he⟩ := simpleEscape?_shortEscape h
    exact readText_simple hu he rest
  · next h =>
    obtain ⟨hquote, hslash⟩ := ne_of_shortEscape?_eq_none h
    split
    · next hctl =>
      have key := readText_unit (codeUnit?_control c.toNat hctl) (by simp [isLowSurrogate]; omega)
        (by simp [isHighSurrogate]; omega) rest
      rwa [Char.ofNat_toNat] at key
    · next hctl => exact readText_plain hquote hslash hctl rest

/-- **Reading back**: behind the opening mark, a quoted text is read up to its closing mark. -/
theorem readText_quoted (cs rest : List Char) : readText (cs.flatMap escape ++ '"' :: rest) = .ok (cs, rest) := by
  induction cs with
  | nil => rw [readText.eq_def]; simp
  | cons c cs ih => rw [List.flatMap_cons, List.append_assoc, readText_escape, ih]; rfl

end SemCheck.Json
