import AffinePhase.BitMatrix.Basic
import AffinePhase.Text.Basic
import AffinePhase.Text.Quoted

/-!
# Bit vectors and matrices as text

A bit vector is written as its bits, first bit first. The long form adds the length.

A matrix is written in two ways: each row on a line of its own, or all rows between brackets with
a bar between neighbours. Reading accepts more than that. Bars, brackets, semicolons and line
feeds separate rows; spaces, commas, tabs and carriage returns are skipped; `1` is a set bit, `0`
and `.` are bits that are not set, and any other character is refused. Pieces without a digit are
not rows, and short rows are filled with zeros up to the longest.

## Main definitions

* `BitVector.digits`, `BitVector.described`: the bits as `0` and `1`, and the long form.
* `BitMatrix.lines`, `BitMatrix.bracketed`: the two printed forms of a matrix.
* `Mark.ofChar?`: what a character means.
* `BitMatrix.parse`: reading, or the first character that has no meaning.
-/

namespace AffinePhase

/-! ### Vectors -/

namespace BitVector

/-- A bit as a digit. -/
def bitDigit (b : Bool) : Char :=
  if b then '1' else '0'

/-- The bits as digits, first bit first. -/
def digits (v : BitVector) : List Char :=
  v.toList.map bitDigit

/-- The bits with the length before them. -/
def described (v : BitVector) : List Char :=
  "BitVec(len=".toList ++ Text.decimal v.length ++ ",value=".toList ++ v.digits ++ ")".toList

end BitVector

/-! ### Characters -/

/-- What a character means in the text of a matrix. -/
inductive Mark where
  /-- The end of a row. -/
  | separator
  /-- Nothing. -/
  | blank
  /-- A bit. -/
  | digit (b : Bool)
  deriving DecidableEq

/-- The meaning of a character, `none` if it has none. -/
def Mark.ofChar? : Char → Option Mark
  | '|' | '[' | ']' | ';' | '\n' => some .separator
  | ' ' | ',' | '\t' | '\r' => some .blank
  | '0' | '.' => some (.digit false)
  | '1' => some (.digit true)
  | _ => none

/-- A character that has no meaning in the text of a matrix. -/
structure ForeignCharacter where
  /-- The character. -/
  char : Char
  deriving DecidableEq

/-- The wording of the complaint about a character without a meaning. -/
def ForeignCharacter.message (e : ForeignCharacter) : List Char :=
  "invalid character ".toList ++ Text.quotedChar e.char ++ " in bit matrix".toList

namespace BitMatrix

/-! ### Printing -/

/-- The matrix with each row on a line of its own. -/
def lines (m : BitMatrix) : List Char :=
  m.rows.flatMap fun row => row.digits ++ ['\n']

/-- The matrix between brackets, with a bar between rows. -/
def bracketed (m : BitMatrix) : List Char :=
  "[".toList ++ Text.joined "|" (m.rows.map BitVector.digits) ++ "]".toList

/-- The bracketed form with the shape before it. -/
def described (m : BitMatrix) : List Char :=
  "BitMatrix(shape=(".toList ++ Text.decimal m.rowCount ++ ", ".toList ++ Text.decimal m.columns ++
    "),value=".toList ++ m.bracketed ++ ")".toList

/-! ### Reading -/

/-- Puts a row before others unless it is empty. -/
def consRow (row : List Bool) (rows : List (List Bool)) : List (List Bool) :=
  if row.isEmpty then rows else row :: rows

/-- The digits before the first separator, and the rows after it. -/
def splitRows : List Char → List Bool × List (List Bool)
  | [] => ([], [])
  | c :: text =>
      let (row, rows) := splitRows text
      match Mark.ofChar? c with
      | some .separator => ([], consRow row rows)
      | some (.digit b) => (b :: row, rows)
      | _ => (row, rows)

/-- The rows of a text, in order. -/
def textRows (text : List Char) : List (List Bool) :=
  let (row, rows) := splitRows text
  consRow row rows

/-- The matrix of rows of any lengths, filled with zeros up to the longest. -/
def ofUneven (rows : List (List Bool)) : BitMatrix :=
  let columns := (rows.map List.length).foldl max 0
  ⟨columns, rows.map fun row =>
    BitVector.ofList (row ++ List.replicate (columns - row.length) false)⟩

/-- Reads a matrix; a text with a character that has no meaning is refused for the first one. -/
def parse (text : List Char) : Except ForeignCharacter BitMatrix :=
  match text.find? fun c => (Mark.ofChar? c).isNone with
  | some c => .error ⟨c⟩
  | none => .ok (ofUneven (textRows text))

end BitMatrix

end AffinePhase
