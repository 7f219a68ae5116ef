import SemCheck.Message
import SemCheck.Span

/-!
# Diagnostics

A diagnostic points at a range of a file and may name further ranges that belong to it.
-/

namespace SemCheck

/-- A further place that a diagnostic refers to. -/
structure Related where
  file : String
  start : Nat
  length : Nat
  text : String
  category : Category
  code : Nat
  deriving DecidableEq, Repr

structure Diagnostic where
  file : String
  start : Nat
  length : Nat
  text : String
  category : Category
  code : Nat
  related : List Related := []
  deriving DecidableEq, Repr

namespace Diagnostic

def error (file : String) (start length : Nat) (text : String) (code : Nat) : Diagnostic :=
  { file, start, length, text, category := .error, code }

/-- An error that covers `span`. -/
def errorAt (file : String) (span : Span) (text : String) (code : Nat) : Diagnostic :=
  error file span.start span.length text code

/-- Adds a place to refer to; it carries no code of its own. -/
def withRelated (d : Diagnostic) (file : String) (start length : Nat) (text : String) : Diagnostic :=
  { d with related := d.related ++ [{ file, start, length, text, category := .message, code := 0 }] }

end Diagnostic

end SemCheck
