import AffinePhase.BitMatrix.Elimination
import AffinePhase.BitMatrix.Basic
import AffinePhase.Failure

/-!
# Affine maps over the field with two elements

An `AffineMap` sends a bit vector `x` to `Ax + b`. It is the classical part of a group element:
the basis state `|x⟩` goes to `|Ax + b⟩`. The two parts are stored as given, so they need not fit
together and `A` need not have an inverse; `AffineMap.isValid?` tests both.

## Main definitions

* `AffineMap.apply`, `AffineMap.after`, `AffineMap.directSum?`: value, composition, direct sum.
* `AffineMap.isValid?`: whether the map is reversible.
* `AffineMap.flipOutput?`, `AffineMap.addOutput?`: the map followed by an `X` or a CNOT.
-/

namespace AffinePhase

/-- The map `x ↦ linear · x + shift`. -/
structure AffineMap where
  /-- The matrix of the linear part. -/
  linear : BitMatrix
  /-- The vector that is added. -/
  shift : BitVector
  deriving DecidableEq

namespace AffineMap

/-- The number of bits, which the shift determines. -/
def numBits (f : AffineMap) : Nat :=
  f.shift.length

/-- The identity map. -/
def identity (n : Nat) : AffineMap :=
  ⟨BitMatrix.identity n, BitVector.zeros n⟩

/-- Whether the linear part is square of the size of the shift. -/
def hasSize (f : AffineMap) (n : Nat) : Bool :=
  f.numBits == n && f.linear.rowCount == n && f.linear.columns == n

/-- Whether the map is reversible: its parts fit together and the linear part has full rank. -/
def isValid? (f : AffineMap) : Option Bool :=
  if f.hasSize f.numBits then f.linear.isInvertible? else some false

/-- The image of a vector. -/
def apply (f : AffineMap) (v : BitVector) : Result BitVector := do
  Result.sameSize f.numBits v.length
  Result.ofOption do
    let image ← f.linear.mulVec? v
    image.xor? f.shift

/-- The map that applies `g` and then `f`. -/
def after (f g : AffineMap) : Result AffineMap := do
  Result.sameSize f.numBits g.numBits
  Result.ofOption do
    let linear ← f.linear.mul? g.linear
    let image ← f.linear.mulVec? g.shift
    let shift ← image.xor? f.shift
    some ⟨linear, shift⟩

/-- The map that acts as `f` on the first bits and as `g` on the others. -/
def directSum? (f g : AffineMap) : Option AffineMap := do
  let linear ← BitMatrix.blockSum? [f.linear, g.linear]
  some ⟨linear, f.shift.append g.shift⟩

/-- The map followed by flipping output bit `i`. -/
def flipOutput? (f : AffineMap) (i : Nat) : Option AffineMap := do
  let shift ← f.shift.flip? i
  some { f with shift := shift }

/-- The map followed by adding output bit `control` into output bit `target`. -/
def addOutput? (f : AffineMap) (control target : Nat) : Option AffineMap := do
  let linear ← f.linear.addRow? control target
  let carried ← f.shift.get? control
  let shift ← if carried then f.shift.flip? target else some f.shift
  some ⟨linear, shift⟩

end AffineMap

end AffinePhase
