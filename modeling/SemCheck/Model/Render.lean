import SemCheck.Limits
import SemCheck.Model.Basic

/-!
# Types and declarations in messages

`typeText` says how a type reads. `typeName` writes the same text piece by piece, which serves types of any depth
(`typeName_eq`).
-/

namespace SemCheck

/-- Names in a sentence: `A`, `A and B`, `A, B and C`. -/
def englishList : List String → String
  | [] => ""
  | [name] => name
  | name :: names =>
    ", ".intercalate (name :: names.dropLast) ++ " and " ++ names.getLastD ""

namespace Model

mutual

/-- A type in source notation: `Map<K,V>`, `A|B`, `A&B`. -/
def typeText (m : Model) : Ty → String
  | .nothing => "Nothing"
  | .unknown n => "<unknown type " ++ toString n ++ ">"
  | .param d => m.name d
  | .applied d args => if args.isEmpty then m.name d else m.name d ++ "<" ++ ",".intercalate (typeTexts m args) ++ ">"
  | .union members => "|".intercalate (typeTexts m members)
  | .intersection members => "&".intercalate (typeTexts m members)

def typeTexts (m : Model) : List Ty → List String
  | [] => []
  | t :: ts => typeText m t :: typeTexts m ts

end

theorem typeTexts_eq (m : Model) (ts : List Ty) : m.typeTexts ts = ts.map m.typeText := by
  induction ts with
  | nil => rfl
  | cons t ts ih => rw [typeTexts, ih, List.map_cons]

/-! ## Piece by piece -/

/-- Something to be written. -/
inductive Piece
  | text (s : String)
  | ty (t : Ty)

def pieceText (m : Model) : Piece → String
  | .text s => s
  | .ty t => m.typeText t

/-- Types with a mark between them. -/
def separated (mark : String) : List Ty → List Piece
  | [] => []
  | [t] => [.ty t]
  | t :: ts => .ty t :: .text mark :: separated mark ts

/-- The pieces that a type consists of. -/
def pieces (m : Model) : Ty → List Piece
  | .applied d [] => [.text (m.name d)]
  | .applied d args => .text (m.name d) :: .text "<" :: (separated "," args ++ [.text ">"])
  | .union members => separated "|" members
  | .intersection members => separated "&" members
  | t => [.text (m.typeText t)]

/-- Writes the pieces behind `written`, in `fuel` steps at most before the rest is written as a whole. -/
def writeWithin (m : Model) : (fuel : Nat) → List Piece → (written : String) → String
  | 0, todo, written => written ++ String.join (todo.map m.pieceText)
  | _, [], written => written
  | fuel + 1, .text s :: todo, written => writeWithin m fuel todo (written ++ s)
  | fuel + 1, .ty t :: todo, written => writeWithin m fuel (m.pieces t ++ todo) written

/-- A type in source notation. -/
def typeName (m : Model) (t : Ty) : String := m.writeWithin Limits.loopSteps [.ty t] ""

theorem join_separated (m : Model) (mark : String) (ts : List Ty) :
    String.join ((separated mark ts).map m.pieceText) = mark.intercalate (m.typeTexts ts) := by
  induction ts with
  | nil => rfl
  | cons t ts ih =>
    cases ts with
    | nil => simp [separated, pieceText, typeTexts]
    | cons u us =>
      simp only [separated, List.map_cons, String.join_cons, ih, pieceText, typeTexts, String.intercalate_cons_cons,
        String.append_assoc]

theorem join_pieces (m : Model) (t : Ty) : String.join ((m.pieces t).map m.pieceText) = m.typeText t := by
  unfold pieces
  split
  · simp [pieceText, typeText]
  · next d args h =>
    have hargs : args.isEmpty = false := by
      cases args with
      | nil => exact absurd rfl h
      | cons => rfl
    simp [typeText, hargs, join_separated, pieceText, String.append_assoc]
  · simp [typeText, join_separated]
  · simp [typeText, join_separated]
  · simp [pieceText]

theorem writeWithin_eq (m : Model) (fuel : Nat) (todo : List Piece) (written : String) :
    m.writeWithin fuel todo written = written ++ String.join (todo.map m.pieceText) := by
  induction fuel generalizing todo written with
  | zero => cases todo <;> rfl
  | succ fuel ih =>
    match todo with
    | [] => simp [writeWithin]
    | .text s :: todo => simp [writeWithin, ih, pieceText, String.append_assoc]
    | .ty t :: todo => simp [writeWithin, ih, join_pieces, pieceText]

/-- **A type is written as it reads**. -/
theorem typeName_eq (m : Model) (t : Ty) : m.typeName t = m.typeText t := by
  simp [typeName, writeWithin_eq, pieceText]

/-- The names of declarations in a sentence. -/
def nameList (m : Model) (ds : List DeclId) : String := englishList (ds.map m.name)

end Model

end SemCheck
