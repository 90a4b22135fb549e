import AffinePhase.Text.Floating
import AffinePhase.Text.Quoted

/-!
# Values of a data format

Gates, circuits and elements are exchanged as texts inside a structured data format. A `Datum` is
a value of such a format, as far as reading has to tell values apart: what is not a text is only
named in a message.

A number in exchanged data is an optional minus sign, digits without leading zeros, an optional
point with digits after it and an optional exponent of ten. A whole number without point and
exponent that fits into 64 bits, with or without sign, is an integer; every other number is
floating. The value of a floating number is found from its first digits, as many as fit into 64
bits, and one power of ten. The digits are rounded, the power of ten is rounded, and so is their
product or quotient, so the value can differ in its last bits from the nearest one.

## Main definitions

* `Number`, `Number.toFloat`: integers and floating-point numbers.
* `Numeral.ofText?`: a written number in its parts.
* `Number.read?`: the number that a text denotes.
* `Datum`, `Datum.described`: the values, and the words for them in a message.
-/

namespace AffinePhase

/-! ### Numbers -/

/-- A number of a data format. -/
inductive Number where
  /-- A whole number that fits into 64 bits, with or without sign. -/
  | integer (i : Int)
  /-- A floating-point number. -/
  | floating (x : Float)

/-- A written number in its parts. -/
structure Numeral where
  /-- Whether there is a minus sign. -/
  negative : Bool
  /-- The digits before the point. -/
  whole : List Char
  /-- The digits after the point, empty if there is no point. -/
  fraction : List Char
  /-- The exponent of ten, if there is one. -/
  exponent : Option Int
  deriving DecidableEq

namespace Numeral

/-! ### Reading the parts -/

/-- The digits at the front of a text, at least one, and what follows them. -/
def digits? (text : List Char) : Option (List Char × List Char) :=
  let (digits, rest) := text.span Char.isDigit
  if digits.isEmpty then none else some (digits, rest)

/-- The point and the digits after it, if the text goes on with a point. -/
def fraction? : List Char → Option (List Char × List Char)
  | '.' :: text => digits? text
  | text => some ([], text)

/-- A number of digits with an optional sign, up to the end of the text. -/
def signed? (text : List Char) : Option Int := do
  let (negative, text) := match text with
    | '-' :: text => (true, text)
    | '+' :: text => (false, text)
    | text => (false, text)
  let (digits, rest) ← digits? text
  let n : Int := Nat.ofDigitChars 10 digits 0
  if rest.isEmpty then some (if negative then -n else n) else none

/-- The exponent, up to the end of the text; the inner `none` says that there is none. -/
def exponent? : List Char → Option (Option Int)
  | [] => some none
  | c :: text => if c = 'e' ∨ c = 'E' then (signed? text).map some else none

/-- The parts of a written number. -/
def ofText? (text : List Char) : Option Numeral := do
  let (negative, text) := match text with
    | '-' :: text => (true, text)
    | text => (false, text)
  let (whole, text) ← digits? text
  if whole.head? = some '0' ∧ whole ≠ ['0'] then
    none
  else
    let (fraction, text) ← fraction? text
    let exponent ← exponent? text
    some ⟨negative, whole, fraction, exponent⟩

/-! ### The significand -/

/-- Appends digits to a number as long as it fits into 64 bits; the digits that were not appended
are given back. -/
def extend (n : Nat) : List Char → Nat × List Char
  | [] => (n, [])
  | c :: digits =>
      let next := Nat.ofDigitChars 10 [c] n
      if next < Text.indexBound then extend next digits else (n, c :: digits)

/-- The first digits as a number, and the exponent of ten that goes with them. Digits before the
point that do not fit raise the exponent, digits after it are left out. -/
def significand (x : Numeral) : Nat × Int :=
  let (n, leftWhole) := extend 0 x.whole
  let (n, leftFraction) := extend n x.fraction
  (n, x.exponent.getD 0 + leftWhole.length - (x.fraction.length - leftFraction.length : Nat))

/-- The integer that is written, if it fits. A minus sign before zero makes a floating zero. -/
def integer? (x : Numeral) : Option Int :=
  let (n, left) := extend 0 x.whole
  if x.fraction ≠ [] ∨ x.exponent.isSome ∨ left ≠ [] then none
  else if !x.negative then some n
  else if 0 < n ∧ 2 * n ≤ Text.indexBound then some (-n)
  else none

/-! ### The floating value -/

/-- The greatest exponent of a power of ten that is a finite floating-point number. -/
def greatestExponent : Nat := 308

/-- A power of ten with an exponent up to the greatest. -/
def powerOfTen (e : Nat) : Float :=
  Float.ofScientific 1 false e

/-- Divides by a power of ten, by as much as is possible at a time. -/
def divide (x : Float) (e : Nat) : Float :=
  if e ≤ greatestExponent then x / powerOfTen e
  else if x == 0 then x
  else divide (x / powerOfTen greatestExponent) (e - greatestExponent)
termination_by e
decreasing_by
  unfold greatestExponent at *
  omega

/-- Multiplies by a power of ten, `none` if the product is too large. -/
def multiply? (x : Float) (e : Nat) : Option Float :=
  if e ≤ greatestExponent then
    let product := x * powerOfTen e
    if product.isInf then none else some product
  else if x == 0 then some x
  else none

/-- The floating-point number that is written, `none` if it is too large. -/
def floating? (x : Numeral) : Option Float := do
  let (n, e) := x.significand
  let start := (UInt64.ofNat n).toFloat
  let value ← if e < 0 then some (divide start e.natAbs) else multiply? start e.toNat
  some (if x.negative then -value else value)

end Numeral

namespace Number

/-- Reads a number, `none` if the text is no number or the number is too large. -/
def read? (text : List Char) : Option Number := do
  let x ← Numeral.ofText? text
  match x.integer? with
  | some i => some (.integer i)
  | none => x.floating?.map .floating

/-- The floating-point number nearest to a number. -/
def toFloat : Number → Float
  | integer i =>
      let size := (UInt64.ofNat i.natAbs).toFloat
      if i < 0 then -size else size
  | floating x => x

end Number

/-! ### Values -/

/-- A value of a data format. -/
inductive Datum where
  /-- No value. -/
  | null
  /-- A truth value. -/
  | boolean (b : Bool)
  /-- A number. -/
  | number (n : Number)
  /-- A text. -/
  | text (s : List Char)
  /-- A sequence of values. -/
  | sequence
  /-- A mapping from texts to values. -/
  | mapping

namespace Datum

/-- The decimal form of an integer, with a minus sign if it is negative. -/
def signedDecimal (i : Int) : List Char :=
  (if i < 0 then ['-'] else []) ++ Text.decimal i.natAbs

/-- A word followed by a value between backquotes. -/
def valued (word : String) (value : List Char) : List Char :=
  word.toList ++ " `".toList ++ value ++ "`".toList

/-- The words for a value in a message. -/
def described : Datum → List Char
  | null => "null".toList
  | boolean b => valued "boolean" (if b then "true".toList else "false".toList)
  | number (.integer i) => valued "integer" (signedDecimal i)
  | number (.floating x) => valued "floating point" (Text.shortestDecimal x)
  | text s => "string ".toList ++ Text.quoted s
  | sequence => "sequence".toList
  | mapping => "map".toList

end Datum

end AffinePhase
