import AffinePhase.Text.Floating

/-!
# Floating-point numbers with a signed undefined value

Some results of floating-point arithmetic are undefined, such as the difference of two infinities.
An undefined value has a sign as well. The sign is never printed and no comparison with a bound
depends on it, but in the order of all values a negative undefined value comes before the numbers
and a positive one after them.

An operation on numbers gives a negative undefined value if its result is undefined. An undefined
operand is handed on as it is, the left one if both are, and only a change of sign changes its sign.

## Main definitions

* `Scalar`: a number or an undefined value, with `+`, `-`, `*`, `/` and change of sign.
* `Scalar.precedes`: the order of all values.
* `Scalar.isBelow`, `Scalar.isAbove`: comparison with a bound, which no undefined value passes.
-/

namespace AffinePhase

/-- A floating-point number or an undefined value with a sign. -/
inductive Scalar where
  /-- The number `x`. -/
  | defined (x : Float)
  /-- An undefined value. -/
  | undefined (negative : Bool)

namespace Scalar

/-- The number zero. -/
def zero : Scalar := .defined 0

/-- The number one. -/
def one : Scalar := .defined 1

/-- The positive infinity. -/
def infinity : Scalar := .defined (1 / 0)

/-- The result of an operation on numbers. -/
@[inline] def ofResult (x : Float) : Scalar :=
  if x.isNaN then .undefined true else .defined x

/-- An operation on numbers, extended to undefined operands. -/
@[inline] def combine (operation : Float → Float → Float) : Scalar → Scalar → Scalar
  | .defined x, .defined y => ofResult (operation x y)
  | .defined _, .undefined negative => .undefined negative
  | .undefined negative, _ => .undefined negative

instance : Add Scalar := ⟨combine fun x y => x + y⟩

instance : Sub Scalar := ⟨combine fun x y => x - y⟩

instance : Mul Scalar := ⟨combine fun x y => x * y⟩

instance : Div Scalar := ⟨combine fun x y => x / y⟩

/-- The value with the opposite sign. -/
protected def neg : Scalar → Scalar
  | .defined x => .defined (-x)
  | .undefined negative => .undefined (!negative)

instance : Neg Scalar := ⟨Scalar.neg⟩

/-- The value without its sign. -/
def abs : Scalar → Scalar
  | .defined x => .defined x.abs
  | .undefined _ => .undefined false

/-- The value is one of the two infinities. -/
def isInfinite : Scalar → Bool
  | .defined x => x.isInf
  | .undefined _ => false

/-- The value is zero. -/
def isZero : Scalar → Bool
  | .defined x => x == 0
  | .undefined _ => false

/-- The value is a number below the bound. -/
def isBelow (bound : Float) : Scalar → Bool
  | .defined x => x < bound
  | .undefined _ => false

/-- The value is a number above the bound. -/
def isAbove (bound : Float) : Scalar → Bool
  | .defined x => bound < x
  | .undefined _ => false

/-- The first value comes before the second one: negative undefined values first, then the numbers
by size, then positive undefined values. -/
def precedes : Scalar → Scalar → Bool
  | .defined x, .defined y => x < y
  | .defined _, .undefined negative => !negative
  | .undefined negative, .defined _ => negative
  | .undefined negative, .undefined negative' => negative && !negative'

/-- The value rounded to the given number of decimal places. -/
def text (places : Nat) : Scalar → List Char
  | .defined x => Text.fixedPlaces places x
  | .undefined _ => Text.undefinedValue

end Scalar

end AffinePhase
