import AffinePhase.Text.Basic

/-!
# Floating-point numbers as text

A finite floating-point number is `± m · 2^e` with a natural number `m`, so it can be written
exactly. It is written in two ways, both by exact integer arithmetic: rounded to a fixed number of
decimal places, and with the fewest digits that no other number shares. The second form has an
exponent of ten if the number is very large or very small.

## Main definitions

* `BinaryFraction`, `BinaryFraction.ofFloat?`: the exact value.
* `Text.fixedPlaces`: the value rounded to decimal places, the even one of two neighbours.
* `Text.shortestDecimal`: the fewest digits that determine the value.
-/

namespace AffinePhase

/-- The number `± mantissa · 2^exponent`. -/
structure BinaryFraction where
  /-- Whether the number has a minus sign. -/
  negative : Bool
  /-- The mantissa, below `2^53`. -/
  mantissa : Nat
  /-- The exponent of two. -/
  exponent : Int
  deriving DecidableEq, Repr

namespace BinaryFraction

/-- The exponent of the smallest positive numbers. -/
def leastExponent : Int := -1074

/-- The value of a floating-point number, `none` if it is not finite. -/
def ofFloat? (x : Float) : Option BinaryFraction :=
  let bits := x.toBits.toNat
  let negative := decide (1 <<< 63 ≤ bits)
  let field := (bits >>> 52) % (1 <<< 11)
  let fraction := bits % (1 <<< 52)
  if field = 2047 then none
  else if field = 0 then some ⟨negative, fraction, leastExponent⟩
  else some ⟨negative, (1 <<< 52) + fraction, leastExponent + (field - 1 : Nat)⟩

/-- Whether the next smaller number is only half as far away as the next larger one. -/
def atBinaryStep (b : BinaryFraction) : Bool :=
  b.mantissa = (1 <<< 52) && leastExponent < b.exponent

end BinaryFraction

namespace Text

/-- The factor and the divisor of `2^e / 10^p`. -/
def scale (e p : Int) : Nat × Nat :=
  (Nat.pow 10 (-p).toNat <<< e.toNat, Nat.pow 10 p.toNat <<< (-e).toNat)

/-- The natural number next to a quotient, the even one of two. -/
def roundQuotient (numerator denominator : Nat) : Nat :=
  let below := numerator / denominator
  let twice := 2 * (numerator % denominator)
  if twice < denominator || (twice = denominator && below % 2 = 0) then below else below + 1

/-- A number of units of a decimal place, at least one digit before the point. -/
def withPoint (places units : Nat) : List Char :=
  let digits := decimal units
  let padded := List.replicate (places + 1 - digits.length) '0' ++ digits
  padded.take (padded.length - places) ++ '.' :: padded.drop (padded.length - places)

/-- The text of an undefined value. -/
def undefinedValue : List Char := "NaN".toList

/-- The text of a number that is not finite. -/
def nonFinite (x : Float) : List Char :=
  if x.isNaN then undefinedValue else if x < 0 then "-inf".toList else "inf".toList

/-- A number rounded to the given number of decimal places. There is no minus sign in front of
zero. -/
def fixedPlaces (places : Nat) (x : Float) : List Char :=
  match BinaryFraction.ofFloat? x with
  | none => nonFinite x
  | some b =>
      let (factor, divisor) := scale b.exponent (-places)
      let units := roundQuotient (b.mantissa * factor) divisor
      (if b.negative && units ≠ 0 then ['-'] else []) ++ withPoint places units

/-- The multiple of `10^p` that reads back as the number, given by its factor: of two neighbours
that do, the nearer. All numbers between the midpoints to the two neighbours read back, the
midpoints themselves if the mantissa is even. In quarters of the last binary place the number is
four mantissas and the midpoints are two away, or one below a power of two. -/
def nearestMultiple? (b : BinaryFraction) (p : Int) : Option Nat :=
  let (factor, divisor) := scale (b.exponent - 2) p
  let value := 4 * b.mantissa * factor
  let low := (4 * b.mantissa - if b.atBinaryStep then 1 else 2) * factor
  let high := (4 * b.mantissa + 2) * factor
  let readsBack (n : Nat) : Bool :=
    if b.mantissa % 2 = 0 then low ≤ n * divisor && n * divisor ≤ high
    else low < n * divisor && n * divisor < high
  let below := value / divisor
  match readsBack below, readsBack (below + 1) with
  | true, true => some (roundQuotient value divisor)
  | true, false => some below
  | false, true => some (below + 1)
  | false, false => none

/-- The exponents of ten that occur in shortest decimals, greatest first. -/
def decimalExponents : List Int :=
  (List.range 634).map fun (i : Nat) => 309 - (i : Int)

/-- The decimal with the fewest digits that determines a number, `none` for zero: a factor and the
exponent of the power of ten that it is multiplied by. -/
def shortest? (b : BinaryFraction) : Option (Nat × Int) :=
  if b.mantissa = 0 then none
  else decimalExponents.findSome? fun p => (nearestMultiple? b p).map fun n => (n, p)

/-- At most so many digits stand before the point without an exponent. -/
def positionalDigits : Int := 16

/-- Fewer zeros than this stand between the point and the first digit without an exponent. -/
def positionalZeros : Int := 5

/-- Digits times a power of ten. The number has a digit after the point unless it is written with
an exponent. -/
def placedDigits (digits : List Char) (p : Int) : List Char :=
  let point := digits.length + p
  if 0 ≤ p ∧ point ≤ positionalDigits then
    digits ++ List.replicate p.toNat '0' ++ ".0".toList
  else if 0 < point ∧ point ≤ positionalDigits then
    digits.take point.toNat ++ '.' :: digits.drop point.toNat
  else if -positionalZeros < point ∧ point ≤ 0 then
    "0.".toList ++ List.replicate (-point).toNat '0' ++ digits
  else
    let first := digits.take 1
    let others := digits.drop 1
    first ++ (if others.isEmpty then [] else '.' :: others) ++
      ['e', if 0 < point then '+' else '-'] ++ decimal (point - 1).natAbs

/-- The fewest digits that determine a number. -/
def shortestDecimal (x : Float) : List Char :=
  match BinaryFraction.ofFloat? x with
  | none => nonFinite x
  | some b =>
      (if b.negative then ['-'] else []) ++
        match shortest? b with
        | some (n, p) => placedDigits (decimal n) p
        | none => "0.0".toList

end Text

end AffinePhase
