import SemCheck.Json.Quoted

/-!
# JSON numbers

`checkNumber` reads a number as a double: up to 64 bits of its digits count, and a number too large for a double is
malformed. `skipNumber` passes over a number that nobody reads, of any size; its faults are all of one kind.
-/

namespace SemCheck.Json

/-- Whether the text goes on with a digit. -/
def startsWithDigit : List Char → Bool
  | c :: _ => c.isDigit
  | [] => false

/-! ## Range -/

/-- The nearest number of 53 significant bits; of two the one whose last bit is 0. -/
def roundToDouble (n : Nat) : Nat :=
  let shift := n.log2 - 52
  let unit := Nat.pow 2 shift
  let q := n / unit
  let r := 2 * (n % unit)
  if r < unit ∨ (r = unit ∧ q % 2 = 0) then q * unit else (q + 1) * unit

/-- Whether `significand · 10 ^ exponent` is too large for a double, with a rounding at each step. -/
def overflowsDouble (significand : Nat) (exponent : Int) : Bool :=
  significand != 0 && 0 ≤ exponent &&
    (308 < exponent ||
      Nat.pow 2 1024 ≤ roundToDouble (roundToDouble significand * roundToDouble (Nat.pow 10 exponent.toNat)))

/-! ## Reading -/

/-- Appends digits to a number as long as it stays below `2 ^ 64`; the result has the number of digits taken. -/
def takeDigits (n taken : Nat) : List Char → Nat × Nat × List Char
  | [] => (n, taken, [])
  | c :: rest =>
    let next := 10 * n + (c.toNat - 48)
    if c.isDigit ∧ next < 18446744073709551616 then takeDigits next (taken + 1) rest else (n, taken, c :: rest)

/-- Checks an exponent, if there is one, and the range of the number. -/
def checkExponent (significand : Nat) (start : Int) (cs : List Char) : Except Fault Unit :=
  let close (exponent : Int) : Except Fault Unit :=
    if overflowsDouble significand exponent then .error .malformed else .ok ()
  let magnitude (sign : Int) (cs : List Char) : Except Fault Unit :=
    match cs with
    | [] => .error .truncated
    | c :: _ =>
      if c.isDigit then
        close (start + sign * ((cs.takeWhile Char.isDigit).foldl (fun n d => 10 * n + (d.toNat - 48)) 0 : Nat))
      else .error .malformed
  match cs with
  | c :: cs =>
    if c = 'e' ∨ c = 'E' then
      match cs with
      | '+' :: cs => magnitude 1 cs
      | '-' :: cs => magnitude (-1) cs
      | cs => magnitude 1 cs
    else close start
  | [] => close start

/-- Checks a fraction, if there is one, and what follows it. -/
def checkFraction (significand : Nat) (start : Int) (cs : List Char) : Except Fault Unit :=
  match cs with
  | '.' :: [] => .error .truncated
  | '.' :: cs =>
    if startsWithDigit cs then
      let (significand, taken, rest) := takeDigits significand 0 cs
      checkExponent significand (start - taken) (rest.dropWhile Char.isDigit)
    else .error .malformed
  | cs => checkExponent significand start cs

/-- Checks the number that the text starts with, behind its sign. -/
def checkNumber (cs : List Char) : Except Fault Unit :=
  match cs with
  | [] => .error .truncated
  | c :: rest =>
    if !c.isDigit then .error .malformed
    else if c = '0' then
      if startsWithDigit rest then .error .malformed else checkFraction 0 0 rest
    else
      let (significand, _, rest) := takeDigits 0 0 (c :: rest)
      checkFraction significand (rest.takeWhile Char.isDigit).length (rest.dropWhile Char.isDigit)

/-! ## Skipping -/

def skipExponent (cs : List Char) : Except Fault (List Char) :=
  let magnitude (cs : List Char) : Except Fault (List Char) :=
    if startsWithDigit cs then .ok (cs.dropWhile Char.isDigit) else .error .malformed
  match cs with
  | c :: rest =>
    if c = 'e' ∨ c = 'E' then
      match rest with
      | '+' :: rest => magnitude rest
      | '-' :: rest => magnitude rest
      | rest => magnitude rest
    else .ok (c :: rest)
  | [] => .ok []

def skipFraction (cs : List Char) : Except Fault (List Char) :=
  match cs with
  | '.' :: cs => if startsWithDigit cs then skipExponent (cs.dropWhile Char.isDigit) else .error .malformed
  | cs => skipExponent cs

/-- Passes over a number, behind its sign. -/
def skipNumber (cs : List Char) : Except Fault (List Char) :=
  match cs with
  | '0' :: cs => if startsWithDigit cs then .error .malformed else skipFraction cs
  | cs => if startsWithDigit cs then skipFraction (cs.dropWhile Char.isDigit) else .error .malformed

end SemCheck.Json
