/-!
# Words, lines and numerals

Circuit text is split into lines, and lines into words. Blank characters are those with the
Unicode property White_Space, so a no-break space separates words as a space does, and a carriage
return before a line feed is blank at the end of its line.

Numbers are written in decimal without leading zeros. An index in circuit text is read more
freely: a plus sign may stand before it, it may have leading zeros, and it must fit into 64 bits.
Indices inside formulas are written with subscript digits.

## Main definitions

* `Text.isBlank`: the property White_Space.
* `Text.trim`, `Text.words`: a line without the blanks around it, and its words.
* `Text.numberedLines`: the lines with their numbers, the first being 1.
* `Text.decimal`, `Text.index?`: numbers as they are written, and indices as they are read.
* `Text.variable`: the name of a variable in a formula.

## Main results

* `Text.index?_decimal`: an index that fits is read back from its decimal form.
-/

namespace AffinePhase

namespace Text

/-! ### Words and lines -/

/-- The code points of the blank characters, as ranges. -/
def blankRanges : List (Nat × Nat) :=
  [(0x09, 0x0d), (0x20, 0x20), (0x85, 0x85), (0xa0, 0xa0), (0x1680, 0x1680), (0x2000, 0x200a),
    (0x2028, 0x2029), (0x202f, 0x202f), (0x205f, 0x205f), (0x3000, 0x3000)]

/-- Whether the character has the property White_Space. -/
def isBlank (c : Char) : Bool :=
  blankRanges.any fun (first, last) => first ≤ c.toNat && c.toNat ≤ last

/-- The text without the blanks before and after it. -/
def trim (text : List Char) : List Char :=
  ((text.dropWhile isBlank).reverse.dropWhile isBlank).reverse

/-- The words of the text: its longest pieces without a blank. -/
def words (text : List Char) : List (List Char) :=
  (text.splitOnP isBlank).filter (!·.isEmpty)

/-- The lines of the text, each with its number. -/
def numberedLines (text : List Char) : List (Nat × List Char) :=
  (text.splitOn '\n').zipIdx.map fun (line, i) => (i + 1, line)

/-! ### Numerals -/

/-- Indices and sizes lie below this bound, the 64-th power of two. -/
def indexBound : Nat := 18446744073709551616

/-- The decimal form of a number, without leading zeros. -/
def decimal (n : Nat) : List Char :=
  Nat.toDigits 10 n

/-- The number that a nonempty list of ASCII digits denotes, if it fits into 64 bits. -/
def digitsValue? (text : List Char) : Option Nat :=
  if !text.isEmpty && text.all Char.isDigit then
    let n := Nat.ofDigitChars 10 text 0
    if n < indexBound then some n else none
  else
    none

/-- Reads an index: decimal digits, with at most one plus sign before them. -/
def index? : List Char → Option Nat
  | '+' :: digits => digitsValue? digits
  | digits => digitsValue? digits

/-- **Indices can be read back.** -/
theorem index?_decimal {n : Nat} (h : n < indexBound) : index? (decimal n) = some n := by
  have hdigits : ∀ c ∈ decimal n, c.isDigit = true := fun c hc =>
    Nat.isDigit_of_mem_toDigits (b := 10) (by decide) (by decide) hc
  have hvalue : digitsValue? (decimal n) = some n := by
    rw [digitsValue?, List.all_eq_true.mpr hdigits]
    simp [decimal, Nat.ofDigitChars_ten_toDigits, h]
  unfold index?
  split
  · -- A sign is no digit, so it does not begin a decimal form.
    rename_i digits hsign
    have hplus : '+'.isDigit = true := hdigits '+' (by rw [hsign]; exact List.mem_cons_self)
    exact absurd hplus (by decide)
  · exact hvalue

/-- Texts one after the other, with a separator between them. -/
def joined (separator : String) (parts : List (List Char)) : List Char :=
  List.intercalate separator.toList parts

/-- A list of numbers between brackets, a comma and a space after each but the last. -/
def decimalList (ns : List Nat) : List Char :=
  "[".toList ++ joined ", " (ns.map decimal) ++ "]".toList

/-- The subscript form of a decimal digit; other characters have none. -/
def subscriptDigit : Char → Char
  | '0' => '₀'
  | '1' => '₁'
  | '2' => '₂'
  | '3' => '₃'
  | '4' => '₄'
  | '5' => '₅'
  | '6' => '₆'
  | '7' => '₇'
  | '8' => '₈'
  | '9' => '₉'
  | c => c

/-- The decimal form of a number in subscript digits. -/
def subscript (n : Nat) : List Char :=
  (decimal n).map subscriptDigit

end Text

/-- A variable: the letter and its index. -/
def Text.variable (i : Nat) : List Char :=
  'x' :: Text.subscript i

end AffinePhase
