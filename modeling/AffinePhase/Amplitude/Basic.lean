import AffinePhase.Amplitude.Scalar
import AffinePhase.Residue

/-!
# Complex amplitudes

The entries of dense matrices are complex numbers with floating-point parts. Every operation is
the textbook formula on the parts, evaluated as written, so results are reproducible to the last
bit, down to the sign of an undefined part. Comparisons allow for rounding: two amplitudes agree if
they are closer than the tolerance.

## Main definitions

* `Amplitude`, `Amplitude.modulus`: complex numbers and their absolute value.
* `Amplitude.omega`: the powers of `ω = e^{iπ/4}`.
* `Amplitude.isClose`: agreement within the tolerance.
* `Amplitude.text`: the two parts, rounded to nine decimal places.
-/

namespace AffinePhase

/-- A complex number. -/
structure Amplitude where
  /-- The real part. -/
  re : Scalar
  /-- The imaginary part. -/
  im : Scalar

namespace Amplitude

/-- The number zero. -/
def zero : Amplitude := ⟨.zero, .zero⟩

/-- The number one. -/
def one : Amplitude := ⟨.one, .zero⟩

/-- The complex number with the given parts. -/
def ofParts (re im : Float) : Amplitude :=
  ⟨.ofResult re, .ofResult im⟩

/-- The complex conjugate. -/
def conjugate (a : Amplitude) : Amplitude :=
  ⟨a.re, -a.im⟩

instance : Add Amplitude := ⟨fun a b => ⟨a.re + b.re, a.im + b.im⟩⟩

instance : Sub Amplitude := ⟨fun a b => ⟨a.re - b.re, a.im - b.im⟩⟩

instance : Mul Amplitude :=
  ⟨fun a b => ⟨a.re * b.re - a.im * b.im, a.re * b.im + a.im * b.re⟩⟩

/-- The square of the absolute value. -/
def squaredModulus (a : Amplitude) : Scalar :=
  a.re * a.re + a.im * a.im

instance : Div Amplitude :=
  ⟨fun a b =>
    ⟨(a.re * b.re + a.im * b.im) / b.squaredModulus,
      (a.im * b.re - a.re * b.im) / b.squaredModulus⟩⟩

/-- The power of two with an exponent between -1022 and 1023. -/
def powerOfTwo (exponent : Int) : Float :=
  Float.ofBits (UInt64.ofNat ((exponent + 1023).toNat <<< 52))

/-- The square root of `long² + short²` for `0 ≤ short ≤ long`, none of the squares being too
large or too small. The root of the rounded sum is an estimate; its error is found from the
difference to the nearer of the two legs, and half of it is taken back, as in a step of Newton's
method. -/
def balancedHypotenuse (long short : Float) : Float :=
  let estimate := (long * long + short * short).sqrt
  let excess :=
    if estimate ≤ 2 * short then
      let rest := estimate - short
      long * (2 * rest - long) + (rest - 2 * (long - short)) * rest
    else
      let rest := estimate - long
      2 * rest * (long - 2 * short) + ((4 * rest - short) * short + rest * rest)
  estimate - excess / (2 * estimate)

/-- The square root of `long² + short²` for `0 ≤ short ≤ long`. A leg that cannot change the last
bit of the other one is added to it, and legs whose squares are too large or too small are
scaled. -/
def hypotenuse (long short : Float) : Float :=
  if short * powerOfTwo 54 ≤ long then
    long + short
  else if powerOfTwo 511 < long then
    balancedHypotenuse (long * powerOfTwo (-600)) (short * powerOfTwo (-600)) * powerOfTwo 600
  else if short < powerOfTwo (-459) then
    balancedHypotenuse (long * powerOfTwo 600) (short * powerOfTwo 600) * powerOfTwo (-600)
  else
    balancedHypotenuse long short

/-- The absolute value. It is infinite if one part is, even if the other one is undefined. Otherwise
an undefined part is handed on as in a sum. -/
def modulus (a : Amplitude) : Scalar :=
  if a.re.isInfinite || a.im.isInfinite then .infinity
  else
    match a.re, a.im with
    | .defined re, .defined im =>
        .defined (if re.abs < im.abs then hypotenuse im.abs re.abs else hypotenuse re.abs im.abs)
    | re, im => re + im

/-- Differences below this bound count as rounding errors. -/
def tolerance : Float := 1e-9

/-- The amplitude is zero within the tolerance. -/
def isNegligible (a : Amplitude) : Bool :=
  a.modulus.isBelow tolerance

/-- The two amplitudes are equal within the tolerance. -/
def isClose (a b : Amplitude) : Bool :=
  (a - b).isNegligible

/-- The angle `π/4`. -/
def eighthTurn : Float := 0.7853981633974483

/-- The power `ωᵏ` of `ω = e^{iπ/4}`. -/
def omega (k : Z8) : Amplitude :=
  let angle := eighthTurn * Float.ofNat k.val
  ofParts angle.cos angle.sin

/-- The number of decimal places of printed amplitudes. -/
def printedPlaces : Nat := 9

/-- The two parts, rounded to the printed places. -/
def text (a : Amplitude) : List Char × List Char :=
  (a.re.text printedPlaces, a.im.text printedPlaces)

/-- Both parts are printed as zero. -/
def printsAsZero (a : Amplitude) : Bool :=
  (a.re.isZero && a.im.isZero) || a.text == zero.text

end Amplitude

end AffinePhase
